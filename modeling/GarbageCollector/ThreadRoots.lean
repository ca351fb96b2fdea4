import GarbageCollector.ExactMarking
import GarbageCollector.ThreadRegistry

/-!
# The roots of `mark`

`threads_stacks_marking` walks the registry of threads and traverses the stack of each thread
before it goes on to the next cell; `mark` then traverses the data and bss segments. What
`pthread_attr_getstack` says of a thread is a parameter.
-/

namespace GarbageCollector.ThreadRoots

open ThreadsStorage ThreadRegistry LinkedList ExactMarking Worklist
open BinaryTree

section Functions

variable (cfg : Config) (fuel : Nat) (s : Storage) (getStack : Nat → Nat × Nat)

/-- From `thread_stack_addr` to `thread_stack_addr + thread_stack_size`. -/
def stackSegment (thread : Nat) : Nat × Nat :=
  ((getStack thread).1, (getStack thread).1 + (getStack thread).2)

/-- The loop of `threads_stacks_marking` from `current_node_of_traversing`. -/
def stacksLoop : Nat → Option Nat → Marker → Option Marker
  | 0, _, _ => none
  | steps + 1, current, m =>
    if isStorageEmpty current = true then some m
    else
      (segmentTraverse cfg fuel m (stackSegment getStack (getNextThread s current).1)).bind
        (stacksLoop steps (getNextThread s current).2)

def threadsStacksMarking (steps : Nat) (m : Marker) : Option Marker :=
  stacksLoop cfg fuel s getStack steps (startThreadsStorageTraverse s) m

/-- `mark` with the traversal that finds its roots. -/
def markAll (data bss : Nat × Nat) (steps : Nat) (m : Marker) : Option Marker :=
  (threadsStacksMarking cfg fuel s getStack steps m).bind fun m =>
    (segmentTraverse cfg fuel m data).bind fun m => segmentTraverse cfg fuel m bss

/-- The stacks of the threads of these cells, and the two segments. -/
def rootSegments (cells : List Nat) (data bss : Nat × Nat) : List (Nat × Nat) :=
  (cells.map fun c => stackSegment getStack (s.thread c)) ++ [data, bss]

end Functions

section Traversal

variable {cfg : Config} {fuel steps : Nat} {s : Storage} {getStack : Nat → Nat × Nat}
  {data bss : Nat × Nat} {l : List Nat} {head : Option Nat} {m : Marker} {o : Nat}

/-- The loop traverses the stacks in the order of the list. -/
theorem stacksLoop_list (h : IsList s.next head l) (hsteps : l.length < steps) :
    stacksLoop cfg fuel s getStack steps head m =
      mark cfg fuel m (l.map fun c => stackSegment getStack (s.thread c)) := by
  induction l generalizing head steps m with
  | nil =>
    obtain ⟨steps, rfl⟩ :=
      Nat.exists_eq_add_one_of_ne_zero (Nat.ne_of_gt (Nat.zero_lt_of_lt hsteps))
    cases h
    rfl
  | cons c l ih =>
    obtain ⟨steps, rfl⟩ :=
      Nat.exists_eq_add_one_of_ne_zero (Nat.ne_of_gt (Nat.zero_lt_of_lt hsteps))
    obtain ⟨rfl, hrest⟩ := h
    have hloop : stacksLoop cfg fuel s getStack steps (s.next c) =
        fun m => mark cfg fuel m (l.map fun c => stackSegment getStack (s.thread c)) :=
      funext fun m => ih hrest (Nat.lt_of_succ_lt_succ hsteps)
    simp only [stacksLoop, isStorageEmpty, getNextThread, Option.isNone_some, Bool.false_eq_true,
      if_false, hloop]
    rfl

/-- The traversal finds all roots. -/
theorem markAll_roots {r : ThreadRegistry.State} (hr : ThreadRegistry.Reachable r)
    (hsteps : r.cells.length < steps) :
    markAll cfg fuel r.storage getStack data bss steps m =
      mark cfg fuel m (rootSegments r.storage getStack r.cells data bss) := by
  obtain ⟨last, hseg⟩ := (reachable_registry hr).linked
  have hlist : IsList r.storage.next r.storage.createdThreadsList r.cells := segment_isList hseg
  have hstacks : threadsStacksMarking cfg fuel r.storage getStack steps m =
      mark cfg fuel m (r.cells.map fun c => stackSegment getStack (r.storage.thread c)) :=
    stacksLoop_list hlist hsteps
  simp only [markAll, hstacks, rootSegments, mark, List.foldlM_append, List.foldlM_cons,
    List.foldlM_nil, bind_pure]
  rfl

/-- After any calls that create and destroy cells `mark` ends, and it has marked exactly what is
reachable from the stacks of the threads whose cells are registered and from the two segments. -/
theorem thread_roots_exact {r : ThreadRegistry.State} {h : Heap} {occupied : BlockTree}
    {stack : Stack} (hr : ThreadRegistry.Reachable r) (hsteps : r.cells.length < steps)
    (hc : Clean cfg fuel h occupied (rootSegments r.storage getStack r.cells data bss))
    (hf : occupied.size < fuel) (hfuel : 2 * cfg.heapSize < fuel) (hstack : stack.data = []) :
    ∃ m', markAll cfg fuel r.storage getStack data bss steps ⟨h, stack⟩ = some m' ∧
      m'.stack.data = [] ∧
      ∀ o, getObject cfg fuel h o = some (some o) →
        (isMarked cfg fuel m'.heap o = some true ↔
          Live cfg fuel h (rootSegments r.storage getStack r.cells data bss) o) := by
  obtain ⟨m', c, hm', hagrees, hempty, hlive⟩ := mark_colours hc hf hfuel hstack
  refine ⟨m', (markAll_roots hr hsteps).trans hm', hempty, ?_⟩
  intro o ho
  have hstart := getObject_start (occupiedInside hc.tree) ho
  calc isMarked cfg fuel m'.heap o = some true
      ↔ o ∈ c.marked := by rw [hagrees.marked, and_iff_right hstart]
    _ ↔ Live cfg fuel h (rootSegments r.storage getStack r.cells data bss) o := hlive o

end Traversal

/-- The stack of thread 10 holds the root word of `twoCells`, that of thread 40 is empty. -/
def twoStacks (thread : Nat) : Nat × Nat := if thread = 10 then (100, 8) else (200, 16)

/-- All segments are below the small heap. -/
theorem twoCells_clean_below {segments : List (Nat × Nat)}
    (hb : ∀ s, s ∈ segments → s.1 ≠ 0 ∧ s.1 < s.2 ∧ s.2 + 8 ≤ 4096) :
    Clean oneBlock 8193 twoCells .nil segments := by
  constructor
  · exact twoCells_clean.tree
  · exact twoCells_clean.disjoint
  · exact twoCells_clean.bits
  · exact twoCells_clean.flags
  · exact fun s hs => ⟨(hb s hs).1, (hb s hs).2.1⟩
  · intro s hs w hw x hwx hxw b _ hbit
    obtain ⟨-, hlt, -⟩ := mem_words.mp hw
    have hbelow := (hb s hs).2.2
    have hlow := hbit.1
    have hstart : 4096 ≤ oneBlock.blockAddr b := Nat.le_add_right _ _
    simp only [getBitmapAddr] at hlow
    omega
  · exact fun _ _ _ _ => twoCells_not_behind _
  · exact fun _ _ _ _ _ _ => twoCells_not_behind _

theorem thread_roots_exact_two_threads :
    ∃ (r : ThreadRegistry.State) (m' : Marker), r.cells = [4, 1] ∧
      markAll oneBlock 8193 r.storage twoStacks (300, 316) (400, 416) 3 ⟨twoCells, createStack⟩ =
        some m' ∧ isMarked oneBlock 8193 m'.heap 4192 = some true := by
  have hstart : ThreadRegistry.Reachable ⟨noCells, []⟩ := .init ⟨rfl, rfl, rfl⟩
  obtain ⟨r, hr, hcells, hfirst, hsecond⟩ := hstart.exists_of_run someCalls
    (fun r => r.cells = [4, 1] ∧ r.storage.thread 4 = 40 ∧ r.storage.thread 1 = 10) (by decide)
  have hsegments : rootSegments r.storage twoStacks r.cells (300, 316) (400, 416) =
      [(200, 216), (100, 108), (300, 316), (400, 416)] := by
    simp [rootSegments, hcells, hfirst, hsecond, stackSegment, twoStacks]
  have hclean : Clean oneBlock 8193 twoCells .nil
      (rootSegments r.storage twoStacks r.cells (300, 316) (400, 416)) := by
    rw [hsegments]
    exact twoCells_clean_below (by decide)
  obtain ⟨m', hm', -, hexact⟩ := thread_roots_exact hr
    (show r.cells.length < 3 by simp [hcells]) hclean
    (show 0 < 8193 by decide) (show 2 * oneBlock.heapSize < 8193 by decide)
    (show createStack.data = [] from rfl)
  refine ⟨r, m', hcells, hm', (hexact 4192 (by decide +kernel)).mpr ?_⟩
  rw [hsegments]
  apply Reaches.step (a := 4176)
  · exact .source ⟨(100, 108), by decide, 100, by decide, by decide +kernel⟩
  · exact ⟨16, by decide +kernel, 4184, by decide, by decide +kernel⟩

end GarbageCollector.ThreadRoots
