import GarbageCollector.LinkedList
import GarbageCollector.ThreadsStorage
import GarbageCollector.Transition

/-!
# The registry of threads

Whole calls of `create_cell_for_thread`, `destroy_cell` and `__wrap_pthread_create`, each of which
holds `storage_lock` from its first to its last operation on the list, and the traversal. A cell is
created only while `thread_count` does not wrap.
-/

namespace GarbageCollector.ThreadRegistry

open ThreadsStorage LinkedList Transition

/-- `calloc` returns `cell`. -/
def createCellForThread (s : Storage) (cell : Nat) : Storage :=
  createUpTo cell (s.calloc cell) createOps

def destroyCell (s : Storage) (cell : Nat) : Storage := destroyUpTo cell s destroyOps

/-- `__wrap_pthread_create`: `created` is the thread that `pthread_create` starts, if it does. -/
def wrapPthreadCreate (s : Storage) (cell : Nat) (created : Option Nat) : Storage :=
  let s := createCellForThread s cell
  match created with
  | some thread => s.setThread cell thread
  | none => destroyCell s cell

/-- `start_threads_storage_traverse`: the new `current_node_of_traversing`. -/
def startThreadsStorageTraverse (s : Storage) : Option Nat := s.createdThreadsList

/-- The thread returned and the new `current_node_of_traversing`. -/
def getNextThread (s : Storage) (current : Option Nat) : Nat × Option Nat :=
  match current with
  | none => (0, none)
  | some cell => (s.thread cell, s.next cell)

def isStorageEmpty (current : Option Nat) : Bool := current.isNone

/-- The loop `while (!is_storage_empty())` around `get_next_thread`: the threads it gets. -/
def traverse (s : Storage) : Nat → Option Nat → Option (List Nat)
  | 0, _ => none
  | fuel + 1, current =>
    if isStorageEmpty current = true then some []
    else (traverse s fuel (getNextThread s current).2).map ((getNextThread s current).1 :: ·)

/-- The storage, and the cells created and not yet destroyed, the newest first. -/
structure State where
  storage : Storage
  cells : List Nat

inductive Call where
  | create (cell : Nat)
  | destroy (cell : Nat)
  | wrapCreate (cell : Nat) (created : Option Nat)

/-- `calloc` returns no cell that is in use. -/
def Free (s : State) (cell : Nat) : Prop := cell ∉ s.cells ∧ s.cells.length < uintMax

instance (s : State) (cell : Nat) : Decidable (Free s cell) :=
  inferInstanceAs (Decidable (_ ∧ _))

/-- Only registered cells are destroyed. -/
def step (s : State) : Call → Option State
  | .create cell =>
    if Free s cell then some ⟨createCellForThread s.storage cell, cell :: s.cells⟩ else none
  | .destroy cell =>
    if cell ∈ s.cells then some ⟨destroyCell s.storage cell, s.cells.erase cell⟩ else none
  | .wrapCreate cell created =>
    if Free s cell then
      some ⟨wrapPthreadCreate s.storage cell created,
        if created.isSome then cell :: s.cells else s.cells⟩
    else none

/-- The empty registry. -/
def Start (s : State) : Prop :=
  s.storage.createdThreadsList = none ∧ s.storage.threadCount = 0 ∧ s.cells = []

abbrev Reachable : State → Prop := Transition.Reachable Start step anyStep

section Calls

variable {s : Storage} {l l' : List Nat} {cell c : Nat}

theorem registry_create (h : Registry s l) (hout : cell ∉ l) :
    Registry (createCellForThread s cell) (cell :: l) := by
  apply (h.calloc hout).created hout
  · simp [Storage.calloc]
  · simp [Storage.calloc]

theorem registry_destroy (h : Registry s l) (hcell : cell ∈ l) :
    Registry (destroyCell s cell) (l.erase cell) := by
  obtain ⟨l₁, l₂, rfl⟩ := List.append_of_mem hcell
  have hnot : cell ∉ l₁ := fun hin =>
    (List.nodup_append'.mp h.nodup).2.2 hin List.mem_cons_self
  rw [List.erase_append_right _ hnot, List.erase_cons_head]
  exact h.destroyed

theorem registry_wrap (h : Registry s l) (hout : cell ∉ l) (created : Option Nat) :
    Registry (wrapPthreadCreate s cell created) (if created.isSome then cell :: l else l) := by
  have hcreated := registry_create h hout
  cases created with
  | some thread => exact hcreated.setThread cell thread
  | none =>
    have hdestroyed := registry_destroy hcreated List.mem_cons_self
    rwa [List.erase_cons_head] at hdestroyed

theorem step_registry {s s' : State} {a : Call} (h : Registry s.storage s.cells)
    (hs : step s a = some s') : Registry s'.storage s'.cells := by
  cases a with
  | create cell =>
    simp only [step, Option.ite_none_right_eq_some, Option.some.injEq] at hs
    obtain ⟨hout, rfl⟩ := hs
    exact registry_create h hout.1
  | destroy cell =>
    simp only [step, Option.ite_none_right_eq_some, Option.some.injEq] at hs
    obtain ⟨hcell, rfl⟩ := hs
    exact registry_destroy h hcell
  | wrapCreate cell created =>
    simp only [step, Option.ite_none_right_eq_some, Option.some.injEq] at hs
    obtain ⟨hout, rfl⟩ := hs
    exact registry_wrap h hout.1 created

theorem start_registry {s : State} (h : Start s) : Registry s.storage s.cells := by
  obtain ⟨hhead, hcount, hcells⟩ := h
  rw [hcells]
  exact ⟨⟨none, hhead, rfl⟩, List.nodup_nil, (fun c hc => nomatch hc), hcount⟩

theorem step_length {s s' : State} {a : Call} (h : s.cells.length ≤ uintMax)
    (hs : step s a = some s') : s'.cells.length ≤ uintMax := by
  cases a with
  | create cell =>
    simp only [step, Option.ite_none_right_eq_some, Option.some.injEq] at hs
    obtain ⟨hfree, rfl⟩ := hs
    exact hfree.2
  | destroy cell =>
    simp only [step, Option.ite_none_right_eq_some, Option.some.injEq] at hs
    obtain ⟨-, rfl⟩ := hs
    exact Nat.le_trans List.length_erase_le h
  | wrapCreate cell created =>
    simp only [step, Option.ite_none_right_eq_some, Option.some.injEq] at hs
    obtain ⟨hfree, rfl⟩ := hs
    cases created with
    | none => exact h
    | some thread => exact hfree.2

theorem reachable_length {s : State} (h : Reachable s) : s.cells.length ≤ uintMax :=
  h.invariant (P := fun s => s.cells.length ≤ uintMax) (fun _ hstart => by simp [hstart.2.2])
    fun _ _ _ hlen _ hs => step_length hlen hs

theorem reachable_registry {s : State} (h : Reachable s) : Registry s.storage s.cells :=
  h.invariant (fun _ hstart => start_registry hstart) fun _ _ _ hreg _ hs => step_registry hreg hs

end Calls

section Shape

variable {s : Storage} {l : List Nat} {head back stop last : Option Nat} {cell c d : Nat}

/-- Between registered cells the two directions agree. -/
theorem Registry.inverse (h : Registry s l) (hc : c ∈ l) (hd : d ∈ l) :
    s.next c = some d ↔ s.prev d = some c := by
  constructor
  · intro hnext
    obtain ⟨l₁, l₂, rfl⟩ := List.append_of_mem hc
    obtain ⟨last, -, hl₂⟩ := h.around
    cases l₂ with
    | nil =>
      rw [hl₂.1] at hnext
      cases hnext
    | cons b l₂ =>
      rw [hl₂.1] at hnext
      cases hnext
      exact hl₂.2.1
  · intro hprev
    obtain ⟨l₁, l₂, rfl⟩ := List.append_of_mem hd
    obtain ⟨last, hl₁, -⟩ := h.around
    rcases hl₁.last_cases with ⟨-, -, hnone⟩ | ⟨l₀, a, m, rfl, hlast, hnext, -, -⟩
    · rw [hprev] at hnone
      cases hnone
    · rw [hprev] at hlast
      cases hlast
      exact hnext

theorem Registry.head_prev (h : Registry s l) (hc : s.createdThreadsList = some c) :
    s.prev c = none := by
  obtain ⟨last, hseg⟩ := h.linked
  cases l with
  | nil =>
    rw [hc] at hseg
    cases hseg.1
  | cons b l =>
    rw [hc] at hseg
    cases hseg.1
    exact hseg.2.1

theorem traverse_list {fuel : Nat} (h : IsList s.next head l) (hf : l.length < fuel) :
    traverse s fuel head = some (l.map s.thread) := by
  induction l generalizing head fuel with
  | nil =>
    obtain ⟨fuel, rfl⟩ := Nat.exists_eq_add_one_of_ne_zero (Nat.ne_of_gt (Nat.zero_lt_of_lt hf))
    cases h
    rfl
  | cons c l ih =>
    obtain ⟨fuel, rfl⟩ := Nat.exists_eq_add_one_of_ne_zero (Nat.ne_of_gt (Nat.zero_lt_of_lt hf))
    obtain ⟨rfl, hrest⟩ := h
    have hloop := ih hrest (Nat.lt_of_succ_lt_succ hf)
    simp only [traverse, isStorageEmpty, getNextThread, Option.isNone_some, Bool.false_eq_true,
      if_false, hloop, Option.map_some, List.map_cons]

/-- The cells registered before have the fields that they had. -/
def SameCells (s s' : Storage) (l : List Nat) : Prop :=
  s'.createdThreadsList = s.createdThreadsList ∧ s'.threadCount = s.threadCount ∧
    ∀ c, c ∈ l → s'.thread c = s.thread c ∧ s'.next c = s.next c ∧ s'.prev c = s.prev c ∧
      s'.live c = s.live c

theorem calloc_other (s : Storage) (hc : c ≠ cell) :
    (s.calloc cell).thread c = s.thread c ∧ (s.calloc cell).next c = s.next c ∧
      (s.calloc cell).prev c = s.prev c ∧ (s.calloc cell).live c = s.live c := by
  simp only [Storage.calloc, Function.update_of_ne hc, and_self]

/-- A created cell that is destroyed at once leaves no trace in the list. -/
theorem failed_wrap_same (h : Registry s l) (hout : cell ∉ l) :
    SameCells s (wrapPthreadCreate s cell none) l := by
  have hreg : Registry (s.calloc cell) l := h.calloc hout
  have hne : ∀ c, c ∈ l → c ≠ cell := by
    rintro c hc rfl
    exact hout hc
  have hold := fun c hc => calloc_other s (hne c hc)
  have hnext : (createCellForThread s cell).next cell = s.createdThreadsList := by
    rw [createCellForThread, createUpTo_next, if_pos ⟨by decide, rfl⟩, Storage.calloc]
  have hprev : (createCellForThread s cell).prev cell = none := by
    rw [createCellForThread, createUpTo_prev, if_neg fun hc => hout (hreg.head_mem hc.2)]
    simp [Storage.calloc]
  have hhead : (createCellForThread s cell).createdThreadsList = some cell := by
    rw [createCellForThread, createUpTo_head, if_pos (by decide)]
  refine ⟨?_, ?_, fun c hc => ⟨?_, ?_, ?_, ?_⟩⟩
  · rw [wrapPthreadCreate, destroyCell, destroyUpTo_head, if_pos ⟨by decide, hhead⟩, hnext]
  · rw [wrapPthreadCreate, destroyCell, destroyUpTo_count, if_pos (by decide),
      createCellForThread, createUpTo_count, if_pos (by decide)]
    rfl
  · rw [wrapPthreadCreate, destroyCell, destroyUpTo_thread, createCellForThread,
      createUpTo_thread, (hold c hc).1]
  · rw [wrapPthreadCreate, destroyCell, destroyUpTo_next, if_neg (by simp [hprev]),
      createCellForThread, createUpTo_next, if_neg fun heq => hne c hc heq.2, (hold c hc).2.1]
  · -- the old head gets its `prev` from the removal of the new one
    rw [wrapPthreadCreate, destroyCell, destroyUpTo_prev, hnext, hprev]
    split
    · rename_i hc'
      exact (Registry.head_prev h hc'.2).symm
    · rename_i hc'
      rw [createCellForThread, createUpTo_prev, if_neg fun heq => hc' ⟨by decide, heq.2⟩,
        (hold c hc).2.2.1]
  · rw [wrapPthreadCreate, destroyCell, destroyUpTo_live, if_neg fun heq => hne c hc heq.2,
      createCellForThread, createUpTo_live, (hold c hc).2.2.2]

end Shape

/-- What holds of the registry after every sequence of calls. -/
structure WellKept (s : State) : Prop where
  /-- The list ends, and its members are the cells created and not destroyed, each once. -/
  list : IsList s.storage.next s.storage.createdThreadsList s.cells
  once : s.cells.Nodup
  inverse : ∀ c, c ∈ s.cells → ∀ d, d ∈ s.cells →
    (s.storage.next c = some d ↔ s.storage.prev d = some c)
  first : ∀ c, s.storage.createdThreadsList = some c → s.storage.prev c = none
  count : s.storage.threadCount = s.cells.length ∧ s.cells.length ≤ uintMax
  failed : ∀ cell, cell ∉ s.cells →
    SameCells s.storage (wrapPthreadCreate s.storage cell none) s.cells
  traversed : ∀ fuel, s.cells.length < fuel →
    traverse s.storage fuel (startThreadsStorageTraverse s.storage) =
      some (s.cells.map s.storage.thread)

theorem registry_well_kept {s : State} (h : Reachable s) : WellKept s := by
  have hreg := reachable_registry h
  obtain ⟨last, hseg⟩ := hreg.linked
  have hlist := segment_isList hseg
  constructor
  · exact hlist
  · exact hreg.nodup
  · exact fun c hc d hd => Registry.inverse hreg hc hd
  · exact fun c hc => Registry.head_prev hreg hc
  · exact ⟨hreg.count, reachable_length h⟩
  · exact fun cell hout => failed_wrap_same hreg hout
  · exact fun fuel hf => traverse_list hlist hf

/-- A storage without cells. -/
def noCells : Storage := ⟨fun _ => 0, fun _ => none, fun _ => none, fun _ => false, none, 0⟩

/-- Three cells, the middle one destroyed, a failed creation in between. -/
def someCalls : List Call :=
  [.wrapCreate 1 (some 10), .create 2, .wrapCreate 3 none, .wrapCreate 4 (some 40), .destroy 2]

theorem registry_well_kept_some_calls :
    ∃ s : State, s.cells = [4, 1] ∧ s.storage.next 4 = some 1 ∧ WellKept s := by
  have hstart : Reachable ⟨noCells, []⟩ := .init ⟨rfl, rfl, rfl⟩
  obtain ⟨s, hr, hcells, hnext⟩ := hstart.exists_of_run someCalls
    (fun s => s.cells = [4, 1] ∧ s.storage.next 4 = some 1) (by decide)
  exact ⟨s, hcells, hnext, registry_well_kept hr⟩

end GarbageCollector.ThreadRegistry
