import GarbageCollector.Lifo
import GarbageCollector.MarkStack
import GarbageCollector.ExactMarking
import GarbageCollector.Transition

/-!
# The mark stack over whole runs

`mark` step by step, on the array of `MarkStack` and with 64-bit loop variables, for any number of
calls one after the other: the heap and the roots of each call are arbitrary, the stack is the one
that the call before has left.
-/

namespace GarbageCollector.MarkStack

open Bytes BinaryTree Lifo ResolvedRange

/-- The state inside `mark`. `log` records the pushes and pops of this call; `fault` records an
`int` overflow or an access beside the array. -/
structure State where
  heap : Heap
  stack : ArrayStack
  /-- The next word of the running loop of `scan` or `segment_traverse`, and its bound. -/
  wordAddr : Nat
  wordEnd : Nat
  segments : List (Nat × Nat)
  log : List (Op Nat)
  fault : Bool

inductive Action where
  | step
  /-- The next call of `mark`. -/
  | mark (heap : Heap) (segments : List (Nat × Nat))

namespace State

/-- The call of `mark` with the stack left by the one before. -/
def enter (stack : ArrayStack) (fault : Bool) (heap : Heap) (segments : List (Nat × Nat)) :
    State :=
  ⟨heap, stack, 0, 0, segments, [], fault⟩

section Functions

variable (realloc : List Nat → Nat → List Nat) (cfg : Config) (fuel : Nat) (s : State)

def push (value : Nat) : State :=
  match s.stack.push realloc value with
  | some stack => { s with stack := stack, log := .push value :: s.log }
  | none => { s with fault := true }

def markAndPush (object : Nat) : Option State :=
  (isMarked cfg fuel s.heap object).bind fun marked =>
    if marked = true then some s
    else
      (markObject cfg fuel s.heap object).map fun heap =>
        ({ s with heap := heap }).push realloc object

/-- The body of the loops of `scan` and `segment_traverse`. -/
def visitWord : Option State :=
  (getObject cfg fuel s.heap (load64 s.heap.mem s.wordAddr)).bind fun
    | none => some { s with wordAddr := (s.wordAddr + 8) % 2 ^ 64 }
    | some object =>
      ({ s with wordAddr := (s.wordAddr + 8) % 2 ^ 64 }).markAndPush realloc cfg fuel object

/-- `scan` up to its loop. -/
def scan (objectAddr : Nat) : Option State :=
  (getObject cfg fuel s.heap objectAddr).bind fun
    | none => some s
    | some object =>
      (getObjectSize cfg fuel s.heap object).map fun size =>
        { s with wordAddr := object, wordEnd := (object + size) % 2 ^ 64 }

/-- The body of the loop of `closure`. -/
def closure : Option State :=
  match s.stack.pop with
  | some (curElem, stack) =>
    ({ s with stack := stack, log := .pop curElem :: s.log }).scan cfg fuel curElem
  | none => some { s with fault := true }

/-- `segment_traverse` up to its loop. -/
def segmentTraverse : Option State :=
  match s.segments with
  | [] => none
  | segment :: segments =>
    if segment.1 ≠ 0 ∧ segment.2 ≠ 0 ∧ segment.1 < segment.2 then
      some { s with wordAddr := segment.1, wordEnd := segment.2, segments := segments }
    else none

end Functions

end State

/-- A step is refused when an assertion fails, when `fuel` runs out in a search of the occupied
tree, and when `mark` has returned. -/
def step (realloc : List Nat → Nat → List Nat) (cfg : Config) (fuel : Nat) (s : State) :
    Action → Option State
  | .step =>
    if s.wordAddr < s.wordEnd then s.visitWord realloc cfg fuel
    else if s.stack.isEmpty = true then s.segmentTraverse
    else s.closure cfg fuel
  | .mark heap segments =>
    if ¬ s.wordAddr < s.wordEnd ∧ s.stack.isEmpty = true ∧ s.segments = [] then
      some (.enter s.stack s.fault heap segments)
    else none

/-- The occupied tree is a search tree of disjoint blocks in the large heap, no more of them than
there are tree nodes. -/
def WellOccupied (cfg : Config) (h : Heap) : Prop :=
  ∃ occupied, OccupiedTree cfg h occupied ∧
    occupied.inorder.Pairwise (fun v w => v.2.stop ≤ w.2.addr) ∧
    occupied.size ≤ cfg.treenodeCount

/-- The first call of `mark`, with the stack that `before_main` has created. -/
def Start (cfg : Config) (s : State) : Prop :=
  ∃ data heap segments, data.length = stackInitCapacity ∧ WellOccupied cfg heap ∧
    s = .enter (.create data) false heap segments

def CallsWellOccupied (cfg : Config) (_ : State) : Action → Prop
  | .step => True
  | .mark heap _ => WellOccupied cfg heap

/-- The words of the payload of a block, which are the slots when it serves objects of 8 bytes. -/
def wordsPerBlock : Nat := 502

def maxEntries (cfg : Config) : Nat := cfg.blocksCount * wordsPerBlock + cfg.treenodeCount

/-- The starts of slots and the addresses of the occupied blocks. -/
structure Pushable (cfg : Config) (h : Heap) (occupied : BlockTree) (o : Nat) : Prop where
  start : IsStart cfg h o
  block : cfg.InLarge o → o ∈ occupied.inorder.map nodeAddr

section Entries

variable {cfg : Config} {fuel : Nat} {h : Heap} {occupied : BlockTree} {a b k o : Nat}

theorem getObject_pushable (ht : OccupiedTree cfg h occupied)
    (hg : getObject cfg fuel h a = some (some o)) : Pushable cfg h occupied o := by
  refine ⟨getObject_start (ExactMarking.occupiedInside ht) hg, fun hin => ?_⟩
  by_cases hl : cfg.InLarge a
  · simp only [getObject, if_pos hl, Option.map_eq_some_iff] at hg
    obtain ⟨found, hfound, ho⟩ := hg
    cases found with
    | none => cases ho
    | some i =>
      cases ho
      obtain ⟨v, hv, -, hblock⟩ := ht.exists_block (extSearchBst_below hfound).1
      rw [hblock]
      exact List.mem_map_of_mem hv
  · by_cases hs : cfg.InSmall a
    · obtain ⟨b, k, hslot, -⟩ := getObject_slot hs hg
      exact absurd hin (cfg.not_inLarge_of_inSmall hslot.inSmall)
    · simp only [getObject, if_neg hl, if_neg hs] at hg
      cases hg

theorem slot_lt_wordsPerBlock (hs : SlotStart cfg h b k o) : k < wordsPerBlock := by
  have hin := hs.inBlock
  have hpos := getSizeWithAlignment_pos hs.size.1
  have hmul := Nat.mul_le_mul_left k hpos
  rw [hs.addr, Config.slotAddr] at hin
  simp only [blockSize, blockHeaderSize, wordsPerBlock] at *
  omega

/-- All that can be pushed in one call. -/
def pushable (cfg : Config) (h : Heap) (occupied : BlockTree) : Finset Nat :=
  (Finset.range cfg.blocksCount ×ˢ Finset.range wordsPerBlock).image
      (fun p => cfg.slotAddr p.1 (headerSize cfg h.mem p.1) p.2) ∪
    (occupied.inorder.map nodeAddr).toFinset

theorem mem_pushable (ho : Pushable cfg h occupied o) : o ∈ pushable cfg h occupied := by
  rw [pushable, Finset.mem_union]
  rcases ho.start with hl | ⟨b, k, hs⟩
  · exact Or.inr (List.mem_toFinset.mpr (ho.block hl))
  · refine Or.inl (Finset.mem_image.mpr ⟨(b, k), ?_, hs.addr.symm⟩)
    exact Finset.mem_product.mpr
      ⟨Finset.mem_range.mpr hs.block, Finset.mem_range.mpr (slot_lt_wordsPerBlock hs)⟩

theorem card_pushable_le (hfew : occupied.size ≤ cfg.treenodeCount) :
    (pushable cfg h occupied).card ≤ maxEntries cfg := by
  refine (Finset.card_union_le _ _).trans (Nat.add_le_add ?_ ?_)
  · refine Finset.card_image_le.trans ?_
    rw [Finset.card_product, Finset.card_range, Finset.card_range]
  · refine (List.toFinset_card_le _).trans ?_
    rwa [List.length_map, NodeTree.length_inorder]

theorem length_le_maxEntries {pushed : List Nat} (hn : pushed.Nodup)
    (hfew : occupied.size ≤ cfg.treenodeCount)
    (hall : ∀ o, o ∈ pushed → Pushable cfg h occupied o) : pushed.length ≤ maxEntries cfg := by
  have hsub : pushed.toFinset ⊆ pushable cfg h occupied := fun o ho =>
    mem_pushable (hall o (List.mem_toFinset.mp ho))
  rw [← List.toFinset_card_of_nodup hn]
  exact (Finset.card_le_card hsub).trans (card_pushable_le hfew)

end Entries

/-- Since the call began with the heap `h₀`, the addresses in `pushed` have been marked. -/
structure Traced (cfg : Config) (fuel : Nat) (h₀ : Heap) (occupied : BlockTree) (h : Heap)
    (pushed : List Nat) : Prop where
  tree : OccupiedTree cfg h₀ occupied
  few : occupied.size ≤ cfg.treenodeCount
  same : SameButMarks cfg h₀ h
  once : pushed.Nodup
  pushable : ∀ o, o ∈ pushed → Pushable cfg h₀ occupied o
  marked : ∀ o, o ∈ pushed → isMarked cfg fuel h o = some true

structure Inv (cfg : Config) (fuel : Nat) (s : State) : Prop where
  noFault : s.fault = false
  positive : 0 < s.stack.capacity
  capacity : s.stack.capacity ≤ max 16 (2 * maxEntries cfg)
  lifo : ∃ l, replay s.log = some l ∧ Holds s.stack l
  traced : ∃ h₀ occupied, Traced cfg fuel h₀ occupied s.heap (pushes s.log)

section Preservation

variable {realloc : List Nat → Nat → List Nat} {cfg : Config} {fuel : Nat} {s s' : State}
  {h₀ h : Heap} {occupied : BlockTree} {pushed l : List Nat} {a o objectAddr : Nat}

theorem Traced.length_le (ht : Traced cfg fuel h₀ occupied h pushed) :
    pushed.length ≤ maxEntries cfg :=
  length_le_maxEntries ht.once ht.few ht.pushable

theorem WellOccupied.traced (hw : WellOccupied cfg h) :
    ∃ h₀ occupied, Traced cfg fuel h₀ occupied h [] := by
  obtain ⟨occupied, htree, -, hfew⟩ := hw
  exact ⟨h, occupied, htree, hfew, SameButMarks.refl, List.nodup_nil, nofun, nofun⟩

/-- An object that is pushed was not marked, so it was not pushed before. -/
theorem Traced.push (ht : Traced cfg fuel h₀ occupied h pushed)
    (hg : getObject cfg fuel h a = some (some o)) (hm : isMarked cfg fuel h o = some false) :
    ∃ h', markObject cfg fuel h o = some h' ∧ Traced cfg fuel h₀ occupied h' (o :: pushed) := by
  rw [ht.same.getObject] at hg
  have hpush := getObject_pushable ht.tree hg
  have hnew : o ∉ pushed := by
    intro hin
    rw [ht.marked o hin] at hm
    cases hm
  obtain ⟨h', hmark, hsame, hself, hothers⟩ := markObject_spec (hpush.start.congr ht.same) hm
  refine ⟨h', hmark, ht.tree, ht.few, ht.same.trans hsame, ?_, ?_, ?_⟩
  · exact List.nodup_cons.mpr ⟨hnew, ht.once⟩
  · exact List.forall_mem_cons.mpr ⟨hpush, ht.pushable⟩
  · refine List.forall_mem_cons.mpr ⟨hself, fun q hq => ?_⟩
    rw [hothers q ((ht.pushable q hq).start.congr ht.same) (fun he => hnew (he ▸ hq))]
    exact ht.marked q hq

/-- The loop variables are in no invariant. -/
theorem Inv.move (hi : Inv cfg fuel s) (wordAddr wordEnd : Nat) (segments : List (Nat × Nat)) :
    Inv cfg fuel { s with wordAddr := wordAddr, wordEnd := wordEnd, segments := segments } :=
  ⟨hi.noFault, hi.positive, hi.capacity, hi.lifo, hi.traced⟩

/-- One more object can be pushed, so there are fewer entries than the bound. -/
theorem Inv.room (hi : Inv cfg fuel s) (ht : Traced cfg fuel h₀ occupied h (o :: pushes s.log))
    (hholds : Holds s.stack l) : l.length < maxEntries cfg := by
  obtain ⟨l', hreplay, hholds'⟩ := hi.lifo
  have hpushes := ht.length_le
  have hsub := (replay_sublist hreplay).length_le
  have htop := hholds.top
  have htop' := hholds'.top
  rw [List.length_cons] at hpushes
  omega

/-- A capacity that is doubled is the number of the entries, so it is below the bound. -/
theorem Inv.push (hr : KeepsContents realloc) (hmax : 2 * maxEntries cfg ≤ intMax)
    (hi : Inv cfg fuel s) (ht : Traced cfg fuel h₀ occupied h (o :: pushes s.log)) :
    Inv cfg fuel (({ s with heap := h }).push realloc o) := by
  obtain ⟨l, hreplay, hholds⟩ := hi.lifo
  have hroom := hi.room ht hholds
  obtain ⟨stack, hrun, hholds', hcap⟩ := hholds.push hr hi.positive (by omega) o
  have hpos := hi.positive
  have hle := hi.capacity
  simp only [State.push, hrun]
  refine ⟨hi.noFault, ?_, ?_, ⟨o :: l, replay_push hreplay, hholds'⟩, h₀, occupied, ht⟩
  · show 0 < stack.capacity
    omega
  · show stack.capacity ≤ max 16 (2 * maxEntries cfg)
    omega

theorem Inv.markAndPush (hr : KeepsContents realloc) (hmax : 2 * maxEntries cfg ≤ intMax)
    (hi : Inv cfg fuel s) (hg : getObject cfg fuel s.heap a = some (some o))
    (hs : s.markAndPush realloc cfg fuel o = some s') : Inv cfg fuel s' := by
  obtain ⟨marked, hm, hs⟩ := Option.bind_eq_some_iff.mp hs
  cases marked with
  | true =>
    cases hs
    exact hi
  | false =>
    obtain ⟨h₀, occupied, ht⟩ := hi.traced
    obtain ⟨h', hmark, ht'⟩ := ht.push hg hm
    simp only [Bool.false_eq_true, if_false, hmark, Option.map_some, Option.some.injEq] at hs
    exact hs ▸ hi.push hr hmax ht'

theorem Inv.visitWord (hr : KeepsContents realloc) (hmax : 2 * maxEntries cfg ≤ intMax)
    (hi : Inv cfg fuel s) (hs : s.visitWord realloc cfg fuel = some s') : Inv cfg fuel s' := by
  obtain ⟨found, hg, hs⟩ := Option.bind_eq_some_iff.mp hs
  have hmoved := hi.move ((s.wordAddr + 8) % 2 ^ 64) s.wordEnd s.segments
  cases found with
  | none =>
    cases hs
    exact hmoved
  | some object => exact hmoved.markAndPush hr hmax hg hs

theorem Inv.scan (hi : Inv cfg fuel s) (hs : s.scan cfg fuel objectAddr = some s') :
    Inv cfg fuel s' := by
  obtain ⟨found, -, hs⟩ := Option.bind_eq_some_iff.mp hs
  cases found with
  | none =>
    cases hs
    exact hi
  | some object =>
    obtain ⟨size, -, rfl⟩ := Option.map_eq_some_iff.mp hs
    exact hi.move _ _ _

theorem Inv.pop (hi : Inv cfg fuel s) (hne : s.stack.isEmpty = false) :
    ∃ curElem stack, s.stack.pop = some (curElem, stack) ∧
      Inv cfg fuel { s with stack := stack, log := .pop curElem :: s.log } := by
  obtain ⟨l, hreplay, hholds⟩ := hi.lifo
  cases l with
  | nil =>
    rw [hholds.isEmpty_iff.mpr rfl] at hne
    cases hne
  | cons o l =>
    obtain ⟨stack, hrun, hholds', hcap⟩ := hholds.pop
    refine ⟨o, stack, hrun, hi.noFault, ?_, ?_, ⟨l, replay_pop hreplay, hholds'⟩, hi.traced⟩
    · exact hcap ▸ hi.positive
    · exact hcap ▸ hi.capacity

theorem Inv.closure (hi : Inv cfg fuel s) (hne : s.stack.isEmpty = false)
    (hs : s.closure cfg fuel = some s') : Inv cfg fuel s' := by
  obtain ⟨curElem, stack, hrun, hpopped⟩ := hi.pop hne
  simp only [State.closure, hrun] at hs
  exact hpopped.scan hs

theorem Inv.segmentTraverse (hi : Inv cfg fuel s) (hs : s.segmentTraverse = some s') :
    Inv cfg fuel s' := by
  cases hseg : s.segments with
  | nil =>
    simp only [State.segmentTraverse, hseg] at hs
    cases hs
  | cons segment segments =>
    simp only [State.segmentTraverse, hseg, Option.ite_none_right_eq_some,
      Option.some.injEq] at hs
    obtain ⟨-, rfl⟩ := hs
    exact hi.move _ _ _

/-- The next call finds an empty stack and starts its own log. -/
theorem Inv.enter (hi : Inv cfg fuel s) (hempty : s.stack.isEmpty = true)
    (hw : WellOccupied cfg h) (segments : List (Nat × Nat)) :
    Inv cfg fuel (.enter s.stack s.fault h segments) := by
  obtain ⟨l, -, hholds⟩ := hi.lifo
  obtain rfl := hholds.isEmpty_iff.mp hempty
  exact ⟨hi.noFault, hi.positive, hi.capacity, ⟨[], rfl, hholds⟩, hw.traced⟩

theorem start_inv (hs : Start cfg s) : Inv cfg fuel s := by
  obtain ⟨data, heap, segments, hdata, hw, rfl⟩ := hs
  have hpos : (0 : Int) < stackInitCapacity := by decide
  have hle : (stackInitCapacity : Int) ≤ max 16 (2 * maxEntries cfg) :=
    Int.ofNat_le.mpr (le_max_left _ _)
  exact ⟨rfl, hpos, hle, ⟨[], rfl, create_holds hdata⟩, hw.traced⟩

theorem step_inv (hr : KeepsContents realloc) (hmax : 2 * maxEntries cfg ≤ intMax)
    (hi : Inv cfg fuel s) {action : Action} (hok : CallsWellOccupied cfg s action)
    (hs : step realloc cfg fuel s action = some s') : Inv cfg fuel s' := by
  cases action with
  | step =>
    simp only [step] at hs
    split at hs
    · exact hi.visitWord hr hmax hs
    · split at hs
      · exact hi.segmentTraverse hs
      · exact hi.closure (Bool.eq_false_of_not_eq_true ‹_›) hs
  | mark heap segments =>
    simp only [step, Option.ite_none_right_eq_some, Option.some.injEq] at hs
    obtain ⟨⟨-, hempty, -⟩, rfl⟩ := hs
    exact hi.enter hempty hok segments

theorem reachable_inv (hr : KeepsContents realloc) (hmax : 2 * maxEntries cfg ≤ intMax)
    (h : Transition.Reachable (Start cfg) (step realloc cfg fuel) (CallsWellOccupied cfg) s) :
    Inv cfg fuel s :=
  h.invariant (fun _ => start_inv) fun _ _ _ hi hok hs => step_inv hr hmax hi hok hs

end Preservation

/-- `HEAP_SIZE`, unless the build defines another. -/
def defaultHeapSize : Nat := 512 * 1024 * 1024

/-- The mark stack between any two steps of `mark`. -/
structure InBounds (cfg : Config) (s : State) : Prop where
  /-- No capacity has overflowed, and each push and each pop was in the array. -/
  noFault : s.fault = false
  once : (pushes s.log).Nodup
  entries : s.stack.top + 1 ≤ cfg.blocksCount * 502 + cfg.treenodeCount
  capacity : 0 < s.stack.capacity ∧ s.stack.capacity ≤ intMax
  /-- Each pop gave what an unbounded stack gives, and the array holds what is left on it. -/
  lifo : ∃ l, replay s.log = some l ∧ Holds s.stack l

section Bounds

variable {realloc : List Nat → Nat → List Nat} {cfg : Config} {fuel : Nat} {s : State}

theorem two_mul_maxEntries_le (hcfg : cfg.heapSize = defaultHeapSize) :
    2 * maxEntries cfg ≤ intMax := by
  rw [maxEntries, Config.blocksCount, Config.treenodeCount, hcfg]
  decide

theorem Inv.inBounds (hmax : 2 * maxEntries cfg ≤ intMax) (hi : Inv cfg fuel s) :
    InBounds cfg s := by
  obtain ⟨l, hreplay, hholds⟩ := hi.lifo
  obtain ⟨h₀, occupied, ht⟩ := hi.traced
  have hle := ht.length_le
  have hsub := (replay_sublist hreplay).length_le
  have htop := hholds.top
  have hcap := hi.capacity
  refine ⟨hi.noFault, ht.once, ?_, ⟨hi.positive, ?_⟩, l, hreplay, hholds⟩
  · simp only [maxEntries, wordsPerBlock] at hle
    omega
  · simp only [intMax] at hmax ⊢
    omega

/-- In every call of `mark` the stack stays in its array. -/
theorem mark_stack_in_bounds (hcfg : cfg.heapSize = defaultHeapSize)
    (hr : KeepsContents realloc)
    (h : Transition.Reachable (Start cfg) (step realloc cfg fuel) (CallsWellOccupied cfg) s) :
    InBounds cfg s :=
  have hmax := two_mul_maxEntries_le hcfg
  (reachable_inv hr hmax h).inBounds hmax

end Bounds

def defaultConfig : Config where
  heapSize := defaultHeapSize
  smallStart := 4096
  largeStart := 4096 + defaultHeapSize
  heapSize_pos := by decide
  blockSize_dvd := by decide
  smallStart_pos := oneBlock.smallStart_pos
  largeStart_pos := by decide
  smallEnd_lt := by decide
  largeEnd_lt := by decide
  heaps_disjoint := by decide

/-- The words from 104 to 240 point to the first 17 slots of a block of objects of 8 bytes. -/
def seventeen : Heap where
  small := {
    mem := fun x =>
      if x = 4104 then 8#8
      else if 104 ≤ x ∧ x < 240 ∧ x % 8 = 0 then BitVec.ofNat 8 (x - 24)
      else if 104 ≤ x ∧ x < 240 ∧ x % 8 = 1 then 0x10#8
      else 0#8
    segregList := fun _ => none
    nextNode := fun _ => none
    emptyListHead := none }
  large := ⟨fun _ => ⟨⟨0, 0, false⟩, none, none⟩, none, none, none⟩

def zeroFilled (data : List Nat) (n : Nat) : List Nat := data ++ List.replicate (n - data.length) 0

theorem zeroFilled_keeps : KeepsContents zeroFilled := by
  intro data n hle
  refine ⟨?_, List.prefix_append _ _⟩
  rw [zeroFilled, List.length_append, List.length_replicate]
  omega

theorem seventeen_wellOccupied : WellOccupied defaultConfig seventeen :=
  ⟨.nil, ⟨rfl, List.Pairwise.nil, fun _ hv => (nomatch hv)⟩, List.Pairwise.nil, Nat.zero_le _⟩

/-- The guard of a run that stays within one call. -/
def WithinCall (_ : State) : Action → Prop
  | .step => True
  | .mark _ _ => False

instance (s : State) (action : Action) : Decidable (WithinCall s action) :=
  match action with
  | .step => isTrue trivial
  | .mark _ _ => isFalse id

theorem WithinCall.callsWellOccupied {cfg : Config} (s : State) (action : Action)
    (h : WithinCall s action) : CallsWellOccupied cfg s action := by
  cases action with
  | step => trivial
  | mark heap segments => exact h.elim

theorem mark_stack_in_bounds_resized :
    ∃ s, s.stack.capacity = 32 ∧ (pushes s.log).length = 17 ∧ InBounds defaultConfig s := by
  have hstart : Start defaultConfig
      (.enter (.create (List.replicate 16 0)) false seventeen [(104, 240)]) :=
    ⟨_, _, _, rfl, seventeen_wellOccupied, rfl⟩
  have hinit : Transition.Reachable (Start defaultConfig) (step zeroFilled defaultConfig 1)
      WithinCall (.enter (.create (List.replicate 16 0)) false seventeen [(104, 240)]) :=
    .init hstart
  obtain ⟨s, hreach, hcap, hpushes⟩ := hinit.exists_of_run (List.replicate 18 .step)
    (fun s => s.stack.capacity = 32 ∧ (pushes s.log).length = 17) (by decide +kernel)
  exact ⟨s, hcap, hpushes, mark_stack_in_bounds rfl zeroFilled_keeps
    (hreach.mono WithinCall.callsWellOccupied)⟩

end GarbageCollector.MarkStack
