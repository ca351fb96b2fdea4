import GarbageCollector.LinkedList
import Mathlib.Data.List.Nodup
import Mathlib.Logic.Function.Basic

/-!
# The storage of threads

`threads-storage.c`: the list of the cells of all threads. `create_cell_for_thread` and
`destroy_cell` are split into the single operations that they do while they hold
`storage_lock`. A cell is named by the call of `calloc` that made it.
-/

namespace GarbageCollector.ThreadsStorage

open LinkedList

/-- `UINT_MAX` -/
def uintMax : Nat := 4294967295

/-- The fields of the cells, which cells are allocated, and the two global variables.
`thread_count` is an `unsigned int`: the systems that read it have `uintMax` cells at most. -/
structure Storage where
  thread : Nat → Nat
  next : Nat → Option Nat
  prev : Nat → Option Nat
  live : Nat → Bool
  createdThreadsList : Option Nat
  threadCount : Nat

def Storage.setNext (s : Storage) (cell : Nat) (p : Option Nat) : Storage :=
  { s with next := Function.update s.next cell p }

def Storage.setPrev (s : Storage) (cell : Nat) (p : Option Nat) : Storage :=
  { s with prev := Function.update s.prev cell p }

def Storage.setThread (s : Storage) (cell thread : Nat) : Storage :=
  { s with thread := Function.update s.thread cell thread }

def Storage.calloc (s : Storage) (cell : Nat) : Storage where
  thread := Function.update s.thread cell 0
  next := Function.update s.next cell none
  prev := Function.update s.prev cell none
  live := Function.update s.live cell true
  createdThreadsList := s.createdThreadsList
  threadCount := s.threadCount

def Storage.free (s : Storage) (cell : Nat) : Storage :=
  { s with live := Function.update s.live cell false }

/-- Operation `j` of `create_cell_for_thread` under the lock. -/
def createOp (newNode : Nat) (s : Storage) : Nat → Storage
  | 0 => { s with threadCount := s.threadCount + 1 }
  | 1 =>
    match s.createdThreadsList with
    | some head => s.setPrev head (some newNode)
    | none => s
  | 2 => s.setNext newNode s.createdThreadsList
  | 3 => { s with createdThreadsList := some newNode }
  | _ => s

def createOps : Nat := 4

/-- The cells that operation `j` reads or writes. -/
def createTouches (newNode : Nat) (s : Storage) : Nat → List Nat
  | 1 => s.createdThreadsList.toList
  | 2 => [newNode]
  | _ => []

/-- Operation `j` of `destroy_cell` under the lock. -/
def destroyOp (cell : Nat) (s : Storage) : Nat → Storage
  | 0 => { s with threadCount := s.threadCount - 1 }
  | 1 =>
    match s.prev cell with
    | some p => s.setNext p (s.next cell)
    | none => s
  | 2 =>
    match s.next cell with
    | some q => s.setPrev q (s.prev cell)
    | none => s
  | 3 =>
    if s.createdThreadsList = some cell then { s with createdThreadsList := s.next cell } else s
  | 4 => s.free cell
  | _ => s

def destroyOps : Nat := 5

/-- The cells that operation `j` reads, writes or frees. -/
def destroyTouches (cell : Nat) (s : Storage) : Nat → List Nat
  | 1 => cell :: (s.prev cell).toList
  | 2 => cell :: (s.next cell).toList
  | 3 => if s.createdThreadsList = some cell then [cell] else []
  | 4 => [cell]
  | _ => []

/-- The first `j` operations. -/
def createUpTo (newNode : Nat) (s : Storage) : Nat → Storage
  | 0 => s
  | j + 1 => createOp newNode (createUpTo newNode s j) j

def destroyUpTo (cell : Nat) (s : Storage) : Nat → Storage
  | 0 => s
  | j + 1 => destroyOp cell (destroyUpTo cell s j) j

/-- The cells `l` from `head` on, the first with `back` as its `prev`, up to the pointer `stop`
and with `last` as the last cell. -/
def Segment (s : Storage) : Option Nat → Option Nat → List Nat → Option Nat → Option Nat → Prop
  | head, back, [], stop, last => head = stop ∧ back = last
  | head, back, c :: l, stop, last =>
    head = some c ∧ s.prev c = back ∧ Segment s (s.next c) (some c) l stop last

/-- The registered cells. -/
structure Registry (s : Storage) (l : List Nat) : Prop where
  linked : ∃ last, Segment s s.createdThreadsList none l none last
  nodup : l.Nodup
  live : ∀ c, c ∈ l → s.live c = true
  count : s.threadCount = l.length

section Lists

variable {s s' : Storage} {head back stop last : Option Nat} {l l' : List Nat} {c i j : Nat}

theorem segment_append : Segment s head back (l ++ l') stop last ↔
    ∃ mid m, Segment s head back l mid m ∧ Segment s mid m l' stop last := by
  induction l generalizing head back with
  | nil =>
    constructor
    · intro h
      exact ⟨head, back, ⟨rfl, rfl⟩, h⟩
    · rintro ⟨mid, m, ⟨rfl, rfl⟩, h⟩
      exact h
  | cons c l ih =>
    simp only [List.cons_append, Segment, ih]
    constructor
    · rintro ⟨hhead, hprev, mid, m, hl, hl'⟩
      exact ⟨mid, m, ⟨hhead, hprev, hl⟩, hl'⟩
    · rintro ⟨mid, m, ⟨hhead, hprev, hl⟩, hl'⟩
      exact ⟨hhead, hprev, mid, m, hl, hl'⟩

theorem Segment.congr (h : Segment s head back l stop last)
    (same : ∀ c, c ∈ l → s'.next c = s.next c ∧ s'.prev c = s.prev c) :
    Segment s' head back l stop last := by
  induction l generalizing head back with
  | nil => exact h
  | cons c l ih =>
    obtain ⟨hhead, hprev, hrest⟩ := h
    obtain ⟨hn, hp⟩ := same c List.mem_cons_self
    refine ⟨hhead, hp.trans hprev, ?_⟩
    rw [hn]
    exact ih hrest fun i hi => same i (List.mem_cons_of_mem _ hi)

theorem segment_isList (h : Segment s head back l none last) : IsList s.next head l := by
  induction l generalizing head back with
  | nil => exact h.1
  | cons c l ih => exact ⟨h.1, ih h.2.2⟩

/-- The first cell gets another `prev`. -/
theorem Segment.setBack {back' : Option Nat} (h : Segment s head back (c :: l) stop last)
    (hprev : s'.prev c = back') (hnext : s'.next c = s.next c)
    (same : ∀ i, i ∈ l → s'.next i = s.next i ∧ s'.prev i = s.prev i) :
    Segment s' head back' (c :: l) stop last := by
  obtain ⟨hhead, -, hrest⟩ := h
  refine ⟨hhead, hprev, ?_⟩
  rw [hnext]
  exact hrest.congr same

end Lists

section Destroy

variable {s : Storage} {l l' : List Nat} {cell c i j : Nat}

@[simp] theorem destroyOp_thread (cell : Nat) (s : Storage) (j : Nat) :
    (destroyOp cell s j).thread = s.thread := by
  fun_cases destroyOp cell s j <;> rfl

/-- Only the second operation writes a `next`. -/
theorem destroyOp_next (cell : Nat) (s : Storage) (j i : Nat) :
    (destroyOp cell s j).next i =
      if j = 1 ∧ s.prev cell = some i then s.next cell else s.next i := by
  fun_cases destroyOp cell s j
  case case2 p hp => simp [Storage.setNext, Function.update_apply, hp, eq_comm]
  case case3 hp => simp [hp]
  all_goals simp_all [Storage.setPrev, Storage.free]

/-- Only the third operation writes a `prev`. -/
theorem destroyOp_prev (cell : Nat) (s : Storage) (j i : Nat) :
    (destroyOp cell s j).prev i =
      if j = 2 ∧ s.next cell = some i then s.prev cell else s.prev i := by
  fun_cases destroyOp cell s j
  case case4 q hq => simp [Storage.setPrev, Function.update_apply, hq, eq_comm]
  case case5 hq => simp [hq]
  all_goals simp_all [Storage.setNext, Storage.free]

theorem destroyOp_head (cell : Nat) (s : Storage) (j : Nat) :
    (destroyOp cell s j).createdThreadsList =
      if j = 3 ∧ s.createdThreadsList = some cell then s.next cell else s.createdThreadsList := by
  fun_cases destroyOp cell s j
  all_goals simp_all [Storage.setNext, Storage.setPrev, Storage.free]

theorem destroyOp_live (cell : Nat) (s : Storage) (j i : Nat) :
    (destroyOp cell s j).live i = if j = 4 ∧ i = cell then false else s.live i := by
  fun_cases destroyOp cell s j
  all_goals simp_all [Storage.setNext, Storage.setPrev, Storage.free, Function.update_apply]

theorem destroyOp_count (cell : Nat) (s : Storage) (j : Nat) :
    (destroyOp cell s j).threadCount =
      if j = 0 then s.threadCount - 1 else s.threadCount := by
  fun_cases destroyOp cell s j
  all_goals simp_all [Storage.setNext, Storage.setPrev, Storage.free]

@[simp] theorem destroyUpTo_thread (cell : Nat) (s : Storage) (j : Nat) :
    (destroyUpTo cell s j).thread = s.thread := by
  induction j with
  | zero => rfl
  | succ j ih => rw [destroyUpTo, destroyOp_thread, ih]

theorem destroyUpTo_links (cell : Nat) (s : Storage) (j : Nat) :
    (∀ i, (destroyUpTo cell s j).next i =
      if 2 ≤ j ∧ s.prev cell = some i then s.next cell else s.next i) ∧
    ∀ i, (destroyUpTo cell s j).prev i =
      if 3 ≤ j ∧ s.next cell = some i then s.prev cell else s.prev i := by
  induction j with
  | zero => simp [destroyUpTo]
  | succ j ih =>
    obtain ⟨hn, hp⟩ := ih
    -- the operations read the cell's own pointers, which none of them changes
    have hnc : (destroyUpTo cell s j).next cell = s.next cell := by
      rw [hn]
      split <;> rfl
    have hpc : (destroyUpTo cell s j).prev cell = s.prev cell := by
      rw [hp]
      split <;> rfl
    constructor
    · intro i
      rw [destroyUpTo, destroyOp_next, hnc, hpc, hn]
      grind
    · intro i
      rw [destroyUpTo, destroyOp_prev, hnc, hpc, hp]
      grind

theorem destroyUpTo_next (cell : Nat) (s : Storage) (j i : Nat) :
    (destroyUpTo cell s j).next i =
      if 2 ≤ j ∧ s.prev cell = some i then s.next cell else s.next i :=
  (destroyUpTo_links cell s j).1 i

theorem destroyUpTo_prev (cell : Nat) (s : Storage) (j i : Nat) :
    (destroyUpTo cell s j).prev i =
      if 3 ≤ j ∧ s.next cell = some i then s.prev cell else s.prev i :=
  (destroyUpTo_links cell s j).2 i

@[simp] theorem destroyUpTo_next_self (cell : Nat) (s : Storage) (j : Nat) :
    (destroyUpTo cell s j).next cell = s.next cell := by
  rw [destroyUpTo_next]
  split <;> rfl

@[simp] theorem destroyUpTo_prev_self (cell : Nat) (s : Storage) (j : Nat) :
    (destroyUpTo cell s j).prev cell = s.prev cell := by
  rw [destroyUpTo_prev]
  split <;> rfl

theorem destroyUpTo_head (cell : Nat) (s : Storage) (j : Nat) :
    (destroyUpTo cell s j).createdThreadsList =
      if 4 ≤ j ∧ s.createdThreadsList = some cell then s.next cell
      else s.createdThreadsList := by
  induction j with
  | zero => simp [destroyUpTo]
  | succ j ih =>
    rw [destroyUpTo, destroyOp_head, ih, destroyUpTo_next_self]
    grind

theorem destroyUpTo_live (cell : Nat) (s : Storage) (j i : Nat) :
    (destroyUpTo cell s j).live i = if 5 ≤ j ∧ i = cell then false else s.live i := by
  induction j with
  | zero => simp [destroyUpTo]
  | succ j ih =>
    rw [destroyUpTo, destroyOp_live, ih]
    grind

theorem destroyUpTo_count (cell : Nat) (s : Storage) (j : Nat) :
    (destroyUpTo cell s j).threadCount =
      if 1 ≤ j then s.threadCount - 1 else s.threadCount := by
  induction j with
  | zero => simp [destroyUpTo]
  | succ j ih =>
    rw [destroyUpTo, destroyOp_count, ih]
    grind

/-- A registered cell between its neighbours. -/
theorem Registry.around (h : Registry s (l ++ cell :: l')) :
    ∃ last, Segment s s.createdThreadsList none l (some cell) (s.prev cell) ∧
      Segment s (s.next cell) (some cell) l' none last := by
  obtain ⟨last, hseg⟩ := h.linked
  obtain ⟨mid, m, hl, hmid, hprev, hl'⟩ := segment_append.mp hseg
  subst hmid hprev
  exact ⟨last, hl, hl'⟩

/-- The last cell of a segment, and what is before it. -/
theorem Segment.last_cases {head back stop last : Option Nat}
    (h : Segment s head back l stop last) :
    l = [] ∧ head = stop ∧ back = last ∨
      ∃ l₀ a m, l = l₀ ++ [a] ∧ last = some a ∧ s.next a = stop ∧
        s.prev a = m ∧ Segment s head back l₀ (some a) m := by
  rcases List.eq_nil_or_concat' l with rfl | ⟨l₀, a, rfl⟩
  · exact Or.inl ⟨rfl, h⟩
  · obtain ⟨mid, m, hl, rfl, hprev, hstop, hlast⟩ := segment_append.mp h
    exact Or.inr ⟨l₀, a, m, rfl, hlast.symm, hstop, hprev, hl⟩

/-- The neighbours of a registered cell are registered. -/
theorem Registry.prev_mem (h : Registry s (l ++ cell :: l')) (hc : s.prev cell = some c) :
    c ∈ l := by
  obtain ⟨last, hl, -⟩ := h.around
  rcases hl.last_cases with ⟨rfl, -, hnone⟩ | ⟨l₀, a, m, rfl, hlast, -⟩
  · rw [hc] at hnone
    cases hnone
  · rw [hc] at hlast
    cases hlast
    simp

theorem Registry.next_mem (h : Registry s (l ++ cell :: l')) (hc : s.next cell = some c) :
    c ∈ l' := by
  obtain ⟨last, -, hl'⟩ := h.around
  cases l' with
  | nil =>
    rw [hc] at hl'
    cases hl'.1
  | cons b l' =>
    rw [hc] at hl'
    cases hl'.1
    exact List.mem_cons_self

theorem Registry.head_mem (h : Registry s l) (hc : s.createdThreadsList = some c) : c ∈ l := by
  obtain ⟨last, hseg⟩ := h.linked
  cases l with
  | nil =>
    rw [hc] at hseg
    cases hseg.1
  | cons b l =>
    rw [hc] at hseg
    cases hseg.1
    exact List.mem_cons_self

/-- No operation of `destroy_cell` on a registered cell touches a freed one. -/
theorem Registry.destroy_live (h : Registry s l) (hcell : cell ∈ l) (hj : j < destroyOps) :
    ∀ i, i ∈ destroyTouches cell (destroyUpTo cell s j) j →
      (destroyUpTo cell s j).live i = true := by
  obtain ⟨l₁, l₂, rfl⟩ := List.append_of_mem hcell
  intro i hi
  have hlive : (destroyUpTo cell s j).live i = s.live i := by
    rw [destroyUpTo_live, if_neg]
    simp only [destroyOps] at hj
    omega
  rw [hlive]
  rcases j with _ | _ | _ | _ | _ | j
  · cases hi
  · simp only [destroyTouches, destroyUpTo_prev_self, List.mem_cons, Option.mem_toList] at hi
    rcases hi with rfl | hi
    · exact h.live _ (by simp)
    · exact h.live _ (List.mem_append_left _ (h.prev_mem hi))
  · simp only [destroyTouches, destroyUpTo_next_self, List.mem_cons, Option.mem_toList] at hi
    rcases hi with rfl | hi
    · exact h.live _ (by simp)
    · exact h.live _ (List.mem_append_right _ (List.mem_cons_of_mem _ (h.next_mem hi)))
  · simp only [destroyTouches] at hi
    split at hi
    · rw [List.mem_singleton.mp hi]
      exact h.live _ (by simp)
    · cases hi
  · rw [List.mem_singleton.mp hi]
    exact h.live _ (by simp)
  · cases hi

/-- The neighbours of the cell are linked to each other. -/
theorem Registry.destroy_linked (h : Registry s (l ++ cell :: l')) :
    ∃ last, Segment (destroyUpTo cell s destroyOps)
      (destroyUpTo cell s destroyOps).createdThreadsList none (l ++ l') none last := by
  obtain ⟨last, hl, hl'⟩ := h.around
  obtain ⟨-, hn', hd⟩ := List.nodup_append'.mp h.nodup
  obtain ⟨hcl', -⟩ := List.nodup_cons.mp hn'
  have hcl : cell ∉ l := fun hin => hd hin List.mem_cons_self
  have hdis : ∀ i, i ∈ l → i ∉ l' := fun i hi hi' => hd hi (List.mem_cons_of_mem _ hi')
  have hprev : ∀ i, i ∈ l → (destroyUpTo cell s destroyOps).prev i = s.prev i := by
    intro i hi
    rw [destroyUpTo_prev, if_neg]
    exact fun hc => hdis i hi (h.next_mem hc.2)
  have hnext' : ∀ i, i ∈ l' → (destroyUpTo cell s destroyOps).next i = s.next i := by
    intro i hi
    rw [destroyUpTo_next, if_neg]
    exact fun hc => hdis i (h.prev_mem hc.2) hi
  have hright : Segment (destroyUpTo cell s destroyOps) (s.next cell) (s.prev cell) l' none
      (if l' = [] then s.prev cell else last) := by
    cases l' with
    | nil => exact ⟨hl'.1, by simp⟩
    | cons b l' =>
      have hb : s.next cell = some b := hl'.1
      rw [if_neg (List.cons_ne_nil _ _)]
      refine hl'.setBack ?_ (hnext' b List.mem_cons_self) fun i hi => ?_
      · rw [destroyUpTo_prev, if_pos ⟨by decide, hb⟩]
      · refine ⟨hnext' i (List.mem_cons_of_mem _ hi), ?_⟩
        rw [destroyUpTo_prev, if_neg]
        rintro ⟨-, hc⟩
        rw [hb] at hc
        cases hc
        exact (List.nodup_cons.mp (List.nodup_cons.mp hn').2).1 hi
  refine ⟨_, segment_append.mpr ⟨s.next cell, s.prev cell, ?_, hright⟩⟩
  rcases hl.last_cases with ⟨rfl, hhead, hnone⟩ | ⟨l₀, a, m, rfl, hlast, hnexta, hpreva, hl₀⟩
  · rw [destroyUpTo_head, if_pos ⟨by decide, hhead⟩]
    exact ⟨rfl, hnone⟩
  · have hhead : s.createdThreadsList ≠ some cell := by
      intro hc
      cases l₀ with
      | nil =>
        rw [hc] at hl₀
        cases hl₀.1
        simp at hcl
      | cons b l₀ =>
        rw [hc] at hl₀
        cases hl₀.1
        simp at hcl
    rw [destroyUpTo_head, if_neg fun hc => hhead hc.2]
    refine segment_append.mpr ⟨some a, m, hl₀.congr fun i hi => ?_, rfl, ?_, ?_, hlast.symm⟩
    · refine ⟨?_, hprev i (List.mem_append_left _ hi)⟩
      rw [destroyUpTo_next, if_neg]
      rintro ⟨-, hc⟩
      rw [hlast] at hc
      cases hc
      have hn := (List.nodup_append'.mp h.nodup).1
      exact (List.nodup_append'.mp hn).2.2 hi List.mem_cons_self
    · rw [hprev a (by simp), hpreva]
    · rw [destroyUpTo_next, if_pos ⟨by decide, hlast⟩]

/-- `destroy_cell` takes a registered cell out of the list. -/
theorem Registry.destroyed (h : Registry s (l ++ cell :: l')) :
    Registry (destroyUpTo cell s destroyOps) (l ++ l') := by
  have hperm : (l ++ cell :: l').Perm (cell :: (l ++ l')) := List.perm_middle
  obtain ⟨hout, hn⟩ := List.nodup_cons.mp (hperm.nodup_iff.mp h.nodup)
  refine ⟨h.destroy_linked, hn, fun c hc => ?_, ?_⟩
  · rw [destroyUpTo_live, if_neg]
    · exact h.live c (hperm.mem_iff.mpr (List.mem_cons_of_mem _ hc))
    · rintro ⟨-, rfl⟩
      exact hout hc
  · rw [destroyUpTo_count, if_pos (by decide), h.count, hperm.length_eq]
    rfl

end Destroy

section Create

variable {s : Storage} {l : List Nat} {newNode c i j : Nat}

@[simp] theorem createOp_thread (newNode : Nat) (s : Storage) (j : Nat) :
    (createOp newNode s j).thread = s.thread := by
  fun_cases createOp newNode s j <;> rfl

@[simp] theorem createOp_live (newNode : Nat) (s : Storage) (j : Nat) :
    (createOp newNode s j).live = s.live := by
  fun_cases createOp newNode s j <;> rfl

theorem createOp_next (newNode : Nat) (s : Storage) (j i : Nat) :
    (createOp newNode s j).next i =
      if j = 2 ∧ i = newNode then s.createdThreadsList else s.next i := by
  fun_cases createOp newNode s j
  all_goals simp_all [Storage.setNext, Storage.setPrev, Function.update_apply]

theorem createOp_prev (newNode : Nat) (s : Storage) (j i : Nat) :
    (createOp newNode s j).prev i =
      if j = 1 ∧ s.createdThreadsList = some i then some newNode else s.prev i := by
  fun_cases createOp newNode s j
  case case2 head hhead => simp [Storage.setPrev, Function.update_apply, hhead, eq_comm]
  all_goals simp_all [Storage.setNext]

theorem createOp_head (newNode : Nat) (s : Storage) (j : Nat) :
    (createOp newNode s j).createdThreadsList =
      if j = 3 then some newNode else s.createdThreadsList := by
  fun_cases createOp newNode s j
  all_goals simp_all [Storage.setNext, Storage.setPrev]

theorem createOp_count (newNode : Nat) (s : Storage) (j : Nat) :
    (createOp newNode s j).threadCount =
      if j = 0 then s.threadCount + 1 else s.threadCount := by
  fun_cases createOp newNode s j
  all_goals simp_all [Storage.setNext, Storage.setPrev]

@[simp] theorem createUpTo_thread (newNode : Nat) (s : Storage) (j : Nat) :
    (createUpTo newNode s j).thread = s.thread := by
  induction j with
  | zero => rfl
  | succ j ih => rw [createUpTo, createOp_thread, ih]

@[simp] theorem createUpTo_live (newNode : Nat) (s : Storage) (j : Nat) :
    (createUpTo newNode s j).live = s.live := by
  induction j with
  | zero => rfl
  | succ j ih => rw [createUpTo, createOp_live, ih]

theorem createUpTo_head (newNode : Nat) (s : Storage) (j : Nat) :
    (createUpTo newNode s j).createdThreadsList =
      if 4 ≤ j then some newNode else s.createdThreadsList := by
  induction j with
  | zero => simp [createUpTo]
  | succ j ih =>
    rw [createUpTo, createOp_head, ih]
    grind

theorem createUpTo_next (newNode : Nat) (s : Storage) (j i : Nat) :
    (createUpTo newNode s j).next i =
      if 3 ≤ j ∧ i = newNode then s.createdThreadsList else s.next i := by
  induction j with
  | zero => simp [createUpTo]
  | succ j ih =>
    rw [createUpTo, createOp_next, ih, createUpTo_head]
    grind

theorem createUpTo_prev (newNode : Nat) (s : Storage) (j i : Nat) :
    (createUpTo newNode s j).prev i =
      if 2 ≤ j ∧ s.createdThreadsList = some i then some newNode else s.prev i := by
  induction j with
  | zero => simp [createUpTo]
  | succ j ih =>
    rw [createUpTo, createOp_prev, ih, createUpTo_head]
    grind

theorem createUpTo_count (newNode : Nat) (s : Storage) (j : Nat) :
    (createUpTo newNode s j).threadCount =
      if 1 ≤ j then s.threadCount + 1 else s.threadCount := by
  induction j with
  | zero => simp [createUpTo]
  | succ j ih =>
    rw [createUpTo, createOp_count, ih]
    grind

/-- No operation of `create_cell_for_thread` touches a freed cell. -/
theorem Registry.create_live (h : Registry s l) (hnew : s.live newNode = true)
    (hj : j < createOps) :
    ∀ i, i ∈ createTouches newNode (createUpTo newNode s j) j →
      (createUpTo newNode s j).live i = true := by
  intro i hi
  rw [createUpTo_live]
  rcases j with _ | _ | _ | j
  · cases hi
  · simp only [createTouches, createUpTo_head, Option.mem_toList] at hi
    exact h.live i (h.head_mem hi)
  · rw [List.mem_singleton.mp hi]
    exact hnew
  · cases hi

/-- `create_cell_for_thread` puts the new cell in front. -/
theorem Registry.created (h : Registry s l) (hout : newNode ∉ l)
    (hnew : s.live newNode = true) (hprev : s.prev newNode = none) :
    Registry (createUpTo newNode s createOps) (newNode :: l) := by
  obtain ⟨last, hseg⟩ := h.linked
  have hnext : (createUpTo newNode s createOps).next newNode = s.createdThreadsList := by
    rw [createUpTo_next, if_pos ⟨by decide, rfl⟩]
  have hself : (createUpTo newNode s createOps).prev newNode = none := by
    rw [createUpTo_prev, if_neg, hprev]
    exact fun hc => hout (h.head_mem hc.2)
  have hsame : ∀ i, i ∈ l → (createUpTo newNode s createOps).next i = s.next i := by
    intro i hi
    rw [createUpTo_next, if_neg]
    rintro ⟨-, rfl⟩
    exact hout hi
  refine ⟨⟨if l = [] then some newNode else last, ?_, hself, ?_⟩,
    List.nodup_cons.mpr ⟨hout, h.nodup⟩, fun c hc => ?_, ?_⟩
  · rw [createUpTo_head, if_pos (by decide)]
  · rw [hnext]
    cases l with
    | nil => exact ⟨hseg.1, by simp⟩
    | cons b l =>
      have hb : s.createdThreadsList = some b := hseg.1
      rw [if_neg (List.cons_ne_nil _ _)]
      refine hseg.setBack ?_ (hsame b List.mem_cons_self) fun i hi => ?_
      · rw [createUpTo_prev, if_pos ⟨by decide, hb⟩]
      · refine ⟨hsame i (List.mem_cons_of_mem _ hi), ?_⟩
        rw [createUpTo_prev, if_neg]
        rintro ⟨-, hc⟩
        rw [hb] at hc
        cases hc
        exact (List.nodup_cons.mp h.nodup).1 hi
  · rw [createUpTo_live]
    rcases List.mem_cons.mp hc with rfl | hc
    · exact hnew
    · exact h.live c hc
  · rw [createUpTo_count, if_pos (by decide), h.count, List.length_cons]

/-- A cell that is not registered is allocated. -/
theorem Registry.calloc (h : Registry s l) (hout : c ∉ l) : Registry (s.calloc c) l := by
  obtain ⟨last, hseg⟩ := h.linked
  have hne : ∀ i, i ∈ l → i ≠ c := by
    rintro i hi rfl
    exact hout hi
  refine ⟨⟨last, hseg.congr fun i hi => ?_⟩, h.nodup, fun i hi => ?_, h.count⟩
  · simp only [Storage.calloc, Function.update_of_ne (hne i hi), and_self]
  · simp only [Storage.calloc, Function.update_of_ne (hne i hi)]
    exact h.live i hi

end Create

section Threads

variable {s : Storage} {l : List Nat} {c t : Nat}

theorem Registry.setThread (h : Registry s l) (c t : Nat) : Registry (s.setThread c t) l := by
  obtain ⟨last, hseg⟩ := h.linked
  exact ⟨⟨last, hseg.congr fun i _ => ⟨rfl, rfl⟩⟩, h.nodup, h.live, h.count⟩

/-- The field `thread` can be written while another thread holds the lock. -/
theorem destroyOp_setThread (cell : Nat) (s : Storage) (c t j : Nat) :
    destroyOp cell (s.setThread c t) j = (destroyOp cell s j).setThread c t := by
  fun_cases destroyOp cell s j
  all_goals simp_all [destroyOp, Storage.setThread, Storage.setNext, Storage.setPrev, Storage.free]

theorem createOp_setThread (newNode : Nat) (s : Storage) (c t j : Nat) :
    createOp newNode (s.setThread c t) j = (createOp newNode s j).setThread c t := by
  fun_cases createOp newNode s j
  all_goals simp_all [createOp, Storage.setThread, Storage.setNext, Storage.setPrev]

theorem destroyUpTo_setThread (cell : Nat) (s : Storage) (c t j : Nat) :
    destroyUpTo cell (s.setThread c t) j = (destroyUpTo cell s j).setThread c t := by
  induction j with
  | zero => rfl
  | succ j ih => rw [destroyUpTo, ih, destroyOp_setThread, destroyUpTo]

theorem createUpTo_setThread (newNode : Nat) (s : Storage) (c t j : Nat) :
    createUpTo newNode (s.setThread c t) j = (createUpTo newNode s j).setThread c t := by
  induction j with
  | zero => rfl
  | succ j ih => rw [createUpTo, ih, createOp_setThread, createUpTo]

end Threads

end GarbageCollector.ThreadsStorage
