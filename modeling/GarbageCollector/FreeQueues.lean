import Mathlib.Data.List.Basic
import Mathlib.Data.List.Infix
import Mathlib.Logic.Function.Basic

/-!
# Queues refilled from a shared pool

Every key has a queue of items. A request takes the first item of its queue; when the queue is used
up, the first box of the pool is opened for the key and its items become the queue.
-/

namespace FreeQueues

universe u v w

structure Queues (K : Type u) (A : Type v) (B : Type w) where
  pending : K → List A
  pool : List B

variable {K : Type u} {A : Type v} {B : Type w} [DecidableEq K]

section Functions

variable (items : K → B → List A)

def refill (q : Queues K A B) (k : K) : Queues K A B :=
  match q.pending k, q.pool with
  | [], b :: pool => ⟨Function.update q.pending k (items k b), pool⟩
  | _, _ => q

def request (q : Queues K A B) (k : K) : Option A × Queues K A B :=
  match (refill items q k).pending k with
  | [] => (none, refill items q k)
  | a :: rest =>
    (some a, ⟨Function.update (refill items q k).pending k rest, (refill items q k).pool⟩)

/-- The answers to a list of requests, up to the first one that finds nothing. -/
def serve : Queues K A B → List K → List (K × Option A) × Queues K A B
  | q, [] => ([], q)
  | q, k :: ks =>
    match request items q k with
    | (none, q') => ([(k, none)], q')
    | (some a, q') => ((k, some a) :: (serve q' ks).1, (serve q' ks).2)

end Functions

/-- The items given for key `k`, in order. -/
def answersTo (k : K) (outs : List (K × Option A)) : List A :=
  outs.filterMap fun x => if x.1 = k then x.2 else none

/-- The boxes opened for key `k`, in order. -/
def openedFor (k : K) (opened : List (K × B)) : List B :=
  opened.filterMap fun x => if x.1 = k then some x.2 else none

section Conservation

variable {items : K → B → List A} {q q' : Queues K A B} {k : K} {a : A} {b : B} {rest : List A}
  {pool : List B}

theorem refill_of_pending (h : q.pending k ≠ []) : refill items q k = q := by
  rw [refill]
  split
  · rename_i hnil _
    exact absurd hnil h
  · rfl

theorem refill_of_pool (h : q.pending k = []) (hp : q.pool = b :: pool) :
    refill items q k = ⟨Function.update q.pending k (items k b), pool⟩ := by
  rw [refill, h, hp]

theorem pending_refill_of_pool (h : q.pending k = []) (hp : q.pool = b :: pool) :
    (refill items q k).pending k = items k b := by
  rw [refill_of_pool h hp]
  exact Function.update_self _ _ _

theorem refill_of_nothing (hp : q.pool = []) : refill items q k = q := by
  rw [refill, hp]
  split
  · rename_i hpool
    cases hpool
  · rfl

theorem request_of_cons (h : (refill items q k).pending k = a :: rest) :
    request items q k =
      (some a, ⟨Function.update (refill items q k).pending k rest, (refill items q k).pool⟩) := by
  rw [request, h]

theorem request_of_nil (h : (refill items q k).pending k = []) :
    request items q k = (none, refill items q k) := by
  rw [request, h]

theorem request_of_nothing (hk : q.pending k = []) (hp : q.pool = []) :
    request items q k = (none, q) := by
  have hsame : refill items q k = q := refill_of_nothing hp
  rw [request_of_nil (by rw [hsame]; exact hk), hsame]

/-- With no empty box a request fails only when its queue and the pool are used up. -/
theorem request_none_iff (hitems : ∀ b, items k b ≠ []) :
    (request items q k).1 = none ↔ q.pending k = [] ∧ q.pool = [] := by
  constructor
  · intro hnone
    cases hr : (refill items q k).pending k with
    | cons a rest =>
      rw [request_of_cons hr] at hnone
      cases hnone
    | nil =>
      have hk : q.pending k = [] := by
        by_contra hne
        rw [refill_of_pending hne] at hr
        exact hne hr
      refine ⟨hk, ?_⟩
      cases hp : q.pool with
      | nil => rfl
      | cons b pool =>
        rw [pending_refill_of_pool hk hp] at hr
        exact absurd hr (hitems b)
  · rintro ⟨hk, hp⟩
    rw [request_of_nothing hk hp]

/-- `outs` answered and `opened` taken from the pool lead from `q` to `q'`: nothing is skipped and
nothing is given twice, and a box is opened only for a request that its queue could not serve. -/
structure Conserves (items : K → B → List A) (q q' : Queues K A B) (outs : List (K × Option A))
    (opened : List (K × B)) : Prop where
  pool : opened.map Prod.snd ++ q'.pool = q.pool
  order : ∀ k, answersTo k outs ++ q'.pending k =
    q.pending k ++ (openedFor k opened).flatMap (items k)
  lazy : ∀ k bs b, openedFor k opened = bs ++ [b] → q'.pending k <:+ (items k b).tail

theorem Conserves.refl : Conserves items q q [] [] := by
  constructor
  · rfl
  · intro k
    simp [answersTo, openedFor]
  · intro k bs b h
    simp [openedFor] at h

theorem Conserves.trans {q'' : Queues K A B} {outs outs' : List (K × Option A)}
    {opened opened' : List (K × B)} (h : Conserves items q q' outs opened)
    (h' : Conserves items q' q'' outs' opened') :
    Conserves items q q'' (outs ++ outs') (opened ++ opened') := by
  constructor
  · rw [List.map_append, List.append_assoc, h'.pool, h.pool]
  · intro k
    have horder := h'.order k
    simp only [answersTo, openedFor, List.filterMap_append, List.flatMap_append] at horder ⊢
    rw [List.append_assoc, horder, ← List.append_assoc]
    have hfirst := h.order k
    simp only [answersTo, openedFor] at hfirst
    rw [hfirst, List.append_assoc]
  · intro k bs b hlast
    rw [openedFor, List.filterMap_append] at hlast
    rcases List.eq_nil_or_concat (openedFor k opened') with hnil | ⟨cs, c, hc⟩
    · -- the last box was opened before; what is left of it is a suffix of what was left then
      have hold : openedFor k opened = bs ++ [b] := by
        rw [openedFor] at hnil
        rwa [hnil, List.append_nil] at hlast
      have horder := h'.order k
      rw [hnil, List.flatMap_nil, List.append_nil] at horder
      have hsuffix : q''.pending k <:+ q'.pending k := ⟨answersTo k outs', horder⟩
      exact hsuffix.trans (h.lazy k bs b hold)
    · have hcb : c = b := by
        rw [openedFor] at hc
        rw [hc, List.concat_eq_append, ← List.append_assoc] at hlast
        exact List.singleton_inj.mp (List.append_inj' hlast rfl).2
      rw [← hcb]
      exact h'.lazy k cs c (by rw [hc, List.concat_eq_append])

/-- Taking the first item of a queue. -/
theorem pop_conserves (h : q.pending k = a :: rest) :
    Conserves items q ⟨Function.update q.pending k rest, q.pool⟩ [(k, some a)] [] := by
  constructor
  · rfl
  · intro l
    by_cases hl : l = k
    · subst hl
      simp [answersTo, openedFor, h]
    · simp [answersTo, openedFor, hl, Ne.symm hl]
  · intro l bs b hopened
    simp [openedFor] at hopened

theorem open_conserves (hk : q.pending k = []) (hp : q.pool = b :: pool) {o : Option A}
    (ho : items k b = o.toList ++ rest) (htail : rest = (items k b).tail) :
    Conserves items q ⟨Function.update q.pending k rest, pool⟩ [(k, o)] [(k, b)] := by
  constructor
  · rw [hp]
    rfl
  · intro l
    by_cases hl : l = k
    · subst hl
      cases o <;> simp [answersTo, openedFor, hk, ho]
    · simp [answersTo, openedFor, hl, Ne.symm hl]
  · intro l bs c hopened
    by_cases hl : l = k
    · subst hl
      have hbc : b = c := by
        have hlast : [] ++ [b] = bs ++ [c] := by simpa [openedFor] using hopened
        exact List.singleton_inj.mp (List.append_inj' hlast rfl).2
      rw [← hbc, ← htail]
      simp
    · simp [openedFor, Ne.symm hl] at hopened

theorem request_conserves (q : Queues K A B) (k : K) :
    ∃ opened, Conserves items q (request items q k).2 [(k, (request items q k).1)] opened := by
  cases hk : q.pending k with
  | cons a rest =>
    have hsame : refill items q k = q := refill_of_pending (by simp [hk])
    rw [request_of_cons (by rw [hsame]; exact hk), hsame]
    exact ⟨[], pop_conserves hk⟩
  | nil =>
    cases hp : q.pool with
    | nil =>
      rw [request_of_nothing hk hp]
      refine ⟨[], ⟨rfl, fun l => ?_, fun l bs b hopened => ?_⟩⟩
      · simp [answersTo, openedFor]
      · simp [openedFor] at hopened
    | cons b pool =>
      have hopen : refill items q k = _ := refill_of_pool hk hp
      refine ⟨[(k, b)], ?_⟩
      cases hb : items k b with
      | nil =>
        rw [request_of_nil ((pending_refill_of_pool hk hp).trans hb), hopen]
        exact open_conserves hk hp (by rw [hb]; rfl) (by rw [hb]; rfl)
      | cons a rest =>
        rw [request_of_cons ((pending_refill_of_pool hk hp).trans hb), hopen]
        simp only [Function.update_idem]
        exact open_conserves hk hp (by rw [hb]; rfl) (by rw [hb]; rfl)

/-- The answers are taken from the queues in order, and the boxes from the pool. -/
theorem serve_conserves (q : Queues K A B) (ks : List K) :
    ∃ opened, Conserves items q (serve items q ks).2 (serve items q ks).1 opened := by
  induction ks generalizing q with
  | nil => exact ⟨[], .refl⟩
  | cons k ks ih =>
    obtain ⟨opened, hfirst⟩ : ∃ opened, Conserves items q (request items q k).2
        [(k, (request items q k).1)] opened := request_conserves q k
    rw [serve]
    rcases hr : request items q k with ⟨_ | a, q'⟩
    · rw [hr] at hfirst
      exact ⟨opened, hfirst⟩
    · rw [hr] at hfirst
      obtain ⟨opened', hrest⟩ := ih q'
      exact ⟨opened ++ opened', hfirst.trans hrest⟩

end Conservation

end FreeQueues
