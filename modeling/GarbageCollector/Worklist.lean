import Mathlib.Data.Finset.Card
import Mathlib.Data.Set.Insert

/-!
# Marking with a worklist

The three colours of a marking algorithm on any graph: a node is white when it is not marked,
grey when it is marked and on the worklist, black otherwise. Visits make white nodes grey,
taking a node off the worklist and visiting its successors makes it black.
-/

namespace Worklist

universe u

variable {A : Type u}

structure Colours (A : Type u) where
  marked : Set A
  grey : List A

/-- What `source` gives and what can be reached from it. -/
inductive Reaches (source : A → Prop) (succ : A → A → Prop) : A → Prop where
  | source {a : A} (h : source a) : Reaches source succ a
  | step {a b : A} (h : Reaches source succ a) (hs : succ a b) : Reaches source succ b

namespace Colours

open Classical in
noncomputable def visit (c : Colours A) (a : A) : Colours A :=
  if a ∈ c.marked then c else ⟨insert a c.marked, a :: c.grey⟩

noncomputable def visits (c : Colours A) (as : List A) : Colours A := as.foldl visit c

/-- The nodes that are marked and off the worklist have all their successors marked, but for
those with `busy`. -/
def Covers (succ : A → A → Prop) (busy : A → Prop) (c : Colours A) : Prop :=
  ∀ a, a ∈ c.marked → a ∉ c.grey → ¬ busy a → ∀ b, succ a b → b ∈ c.marked

variable {c : Colours A} {a b : A} {as : List A} {succ : A → A → Prop} {busy source : A → Prop}

theorem visit_of_mem (h : a ∈ c.marked) : c.visit a = c := if_pos h

theorem visit_of_not_mem (h : a ∉ c.marked) : c.visit a = ⟨insert a c.marked, a :: c.grey⟩ :=
  if_neg h

theorem marked_visit : (c.visit a).marked = insert a c.marked := by
  by_cases h : a ∈ c.marked
  · rw [visit_of_mem h, Set.insert_eq_of_mem h]
  · rw [visit_of_not_mem h]

theorem mem_marked_visits : b ∈ (c.visits as).marked ↔ b ∈ as ∨ b ∈ c.marked := by
  induction as generalizing c with
  | nil => simp [visits]
  | cons a as ih =>
    have hstep : c.visits (a :: as) = (c.visit a).visits as := rfl
    rw [hstep, ih, marked_visit, Set.mem_insert_iff, List.mem_cons]
    constructor
    · rintro (h | h | h)
      · exact Or.inl (Or.inr h)
      · exact Or.inl (Or.inl h)
      · exact Or.inr h
    · rintro ((h | h) | h)
      · exact Or.inr (Or.inl h)
      · exact Or.inl h
      · exact Or.inr (Or.inr h)

theorem Covers.visit (h : c.Covers succ busy) : (c.visit a).Covers succ busy := by
  by_cases ha : a ∈ c.marked
  · rwa [visit_of_mem ha]
  · rw [visit_of_not_mem ha]
    intro x hx hgrey hbusy b hb
    rw [List.mem_cons, not_or] at hgrey
    rcases hx with rfl | hx
    · exact absurd rfl hgrey.1
    · exact Or.inr (h x hx hgrey.2 hbusy b hb)

theorem Covers.visits (h : c.Covers succ busy) : (c.visits as).Covers succ busy := by
  induction as generalizing c with
  | nil => exact h
  | cons a as ih => exact ih h.visit

/-- A node is taken off the worklist. -/
theorem Covers.pop (h : c.Covers succ busy) (hgrey : c.grey = a :: as) :
    (Colours.mk c.marked as).Covers succ fun x => busy x ∨ x = a := by
  intro x hx hout hbusy
  rw [not_or] at hbusy
  apply h x hx _ hbusy.1
  rw [hgrey, List.mem_cons, not_or]
  exact ⟨hbusy.2, hout⟩

/-- All successors of the busy node have been visited. -/
theorem Covers.done (h : c.Covers succ fun x => busy x ∨ x = a)
    (ha : ∀ b, succ a b → b ∈ c.marked) : c.Covers succ busy := by
  intro x hx hout hbusy b hb
  by_cases hxa : x = a
  · rw [hxa] at hb
    exact ha b hb
  · exact h x hx hout (fun h => h.elim hbusy hxa) b hb

/-- When the worklist is empty everything reachable is marked. -/
theorem Covers.reaches (h : c.Covers succ fun _ => False) (hgrey : c.grey = [])
    (hsource : ∀ a, source a → a ∈ c.marked) (hr : Reaches source succ a) : a ∈ c.marked := by
  induction hr with
  | source hs => exact hsource _ hs
  | step _ hs ih =>
    apply h _ ih _ id _ hs
    rw [hgrey]
    exact List.not_mem_nil

theorem visits_subset {r : A → Prop} (h : ∀ a, a ∈ c.marked → r a) (has : ∀ a, a ∈ as → r a) :
    ∀ a, a ∈ (c.visits as).marked → r a := by
  intro a ha
  rcases mem_marked_visits.mp ha with ha | ha
  · exact has a ha
  · exact h a ha

/-- The nodes on the worklist are marked. -/
def GreyMarked (c : Colours A) : Prop := ∀ a, a ∈ c.grey → a ∈ c.marked

theorem GreyMarked.visits (h : c.GreyMarked) : (c.visits as).GreyMarked := by
  induction as generalizing c with
  | nil => exact h
  | cons a as ih =>
    apply ih
    by_cases ha : a ∈ c.marked
    · rwa [visit_of_mem ha]
    · rw [visit_of_not_mem ha]
      intro x hx
      rcases List.mem_cons.mp hx with rfl | hx
      · exact Or.inl rfl
      · exact Or.inr (h x hx)

open Classical in
/-- How often the worklist can still be popped, when all nodes come from `univ`. -/
noncomputable def work (univ : Finset A) (c : Colours A) : Nat :=
  (univ.filter fun a => a ∉ c.marked).card + c.grey.length

theorem work_le (univ : Finset A) (h : c.grey = []) : c.work univ ≤ univ.card := by
  classical
  rw [work, h]
  exact Finset.card_filter_le _ _

/-- A visit trades a white node for a grey one. -/
theorem work_visit (univ : Finset A) (ha : a ∈ univ) : (c.visit a).work univ = c.work univ := by
  classical
  by_cases h : a ∈ c.marked
  · rw [visit_of_mem h]
  · have hmem : a ∈ univ.filter fun x => x ∉ c.marked := Finset.mem_filter.mpr ⟨ha, h⟩
    have herase : (univ.filter fun x => x ∉ insert a c.marked) =
        (univ.filter fun x => x ∉ c.marked).erase a := by
      ext x
      simp only [Finset.mem_filter, Finset.mem_erase, Set.mem_insert_iff, not_or]
      tauto
    have hpos := Finset.card_pos.mpr ⟨a, hmem⟩
    rw [visit_of_not_mem h]
    simp only [work, herase, Finset.card_erase_of_mem hmem, List.length_cons]
    omega

theorem work_visits (univ : Finset A) (has : ∀ a, a ∈ as → a ∈ univ) :
    (c.visits as).work univ = c.work univ := by
  induction as generalizing c with
  | nil => rfl
  | cons a as ih =>
    have hstep : c.visits (a :: as) = (c.visit a).visits as := rfl
    rw [hstep, ih fun x hx => has x (List.mem_cons_of_mem _ hx),
      work_visit univ (has a List.mem_cons_self)]

theorem work_pop (univ : Finset A) (h : c.grey = a :: as) :
    c.work univ = (Colours.mk c.marked as).work univ + 1 := by
  simp only [work, h, List.length_cons]
  omega

end Colours

end Worklist
