import GarbageCollector.MarkRuns
import GarbageCollector.LargeTiling
import Mathlib.Logic.Relation

/-!
# The steps of `mark` and its recursion

The functions of `Marking` run their loops in one go, over lists of words and on a list for a
stack. Whenever they give a result, the steps of `MarkRuns` return with the same heap, as no loop
variable wraps around.
-/

namespace GarbageCollector.MarkStack

open Bytes BinaryTree Relation ResolvedRange

/-- The array and its capacity stand for the list and its capacity. -/
structure Refines (s : ArrayStack) (t : Stack) : Prop where
  holds : Holds s t.data
  capacity : s.capacity = t.capacity

section Stacks

variable {realloc : List Nat → Nat → List Nat} {s s' : ArrayStack} {t t' : Stack} {value : Nat}

theorem Refines.push (h : Refines s t) (hr : KeepsContents realloc) (hpos : 0 < s.capacity)
    (hint : s.capacity = t.data.length → s.capacity * 2 ≤ intMax) (value : Nat) :
    ∃ s', s.push realloc value = some s' ∧ Refines s' (t.push value) := by
  obtain ⟨s', hrun, hholds, hcap⟩ := h.holds.push hr hpos hint value
  have hroom := hholds.length_le
  have hsame := h.capacity
  rw [List.length_cons] at hroom
  refine ⟨s', hrun, ?_, ?_⟩
  · rw [Stack.data_push]
    exact hholds
  · rw [Stack.push]
    split <;> simp only [Stack.resize] <;> omega

theorem Refines.pop (h : Refines s t) (hpop : t.pop = some (value, t')) :
    ∃ s', s.pop = some (value, s') ∧ Refines s' t' := by
  have hholds := h.holds
  cases hdata : t.data with
  | nil =>
    rw [Stack.pop, hdata] at hpop
    cases hpop
  | cons head data =>
    simp only [Stack.pop, hdata, Option.some.injEq, Prod.mk.injEq] at hpop
    obtain ⟨rfl, rfl⟩ := hpop
    rw [hdata] at hholds
    obtain ⟨s', hrun, hholds', hcap⟩ := hholds.pop
    exact ⟨s', hrun, hholds', hcap.trans h.capacity⟩

end Stacks

section Words

variable {start stop : Nat}

theorem words_of_le (h : stop ≤ start) : words start stop = [] := by
  rw [words, show (stop - start + 7) / 8 = 0 by omega]
  rfl

theorem words_of_lt (h : start < stop) : words start stop = start :: words (start + 8) stop := by
  have hcount : (stop - start + 7) / 8 = (stop - (start + 8) + 7) / 8 + 1 := by omega
  rw [words, hcount, List.range_succ_eq_map, List.map_cons, List.map_map, words, Nat.mul_zero,
    Nat.add_zero]
  refine congrArg _ (List.map_congr_left fun i _ => ?_)
  simp only [Function.comp_apply]
  omega

end Words

/-- The word after the last one of an object has an address. -/
def RoomAbove (cfg : Config) : Prop :=
  cfg.smallEnd + (maxObjectSize + 8) ≤ 2 ^ 64 ∧ cfg.largeEnd + 8 ≤ 2 ^ 64

theorem scan_end_le {cfg : Config} {fuel : Nat} {h : Heap} {occupied : BlockTree} {a o size : Nat}
    (hroom : RoomAbove cfg) (ht : OccupiedTree cfg h occupied)
    (hg : getObject cfg fuel h a = some (some o)) (hsize : getObjectSize cfg fuel h o = some size) :
    o + size + 8 ≤ 2 ^ 64 := by
  rcases getObject_start (ExactMarking.occupiedInside ht) hg with hl | ⟨b, k, hs⟩
  · have hout : ¬ cfg.InSmall o := fun hs => cfg.not_inLarge_of_inSmall hs hl
    simp only [getObjectSize, if_neg hout, if_pos hl] at hsize
    obtain ⟨found, hfound, hsize⟩ := Option.bind_eq_some_iff.mp hsize
    cases found with
    | none => cases hsize
    | some i =>
      cases hsize
      obtain ⟨hbelow, haddr⟩ := searchBst_below hfound
      obtain ⟨v, hv, -, hblock⟩ := ht.exists_block hbelow
      have hend := (ht.inside v hv).2
      have hlarge := hroom.2
      rw [hblock] at haddr ⊢
      rw [Header.stop, haddr] at hend
      omega
  · rw [getObjectSize_slot hs, Option.some.injEq] at hsize
    have hle := getSizeWithAlignment_le hs.size.2
    have hin := hs.inSmall.2
    have hsmall := hroom.1
    omega

/-- The steps of one call. -/
def Steps (realloc : List Nat → Nat → List Nat) (cfg : Config) (fuel : Nat) :
    State → State → Prop :=
  ReflTransGen fun s s' => step realloc cfg fuel s .step = some s'

/-- `mark` has returned. -/
def Returned (s : State) : Prop :=
  ¬ s.wordAddr < s.wordEnd ∧ s.stack.isEmpty = true ∧ s.segments = []

/-- The state belongs to the marker of the recursion. -/
structure Follows (cfg : Config) (fuel : Nat) (s : State) (m : Marker) : Prop where
  inv : Inv cfg fuel s
  heap : s.heap = m.heap
  stack : Refines s.stack m.stack

section Simulation

variable {realloc : List Nat → Nat → List Nat} {cfg : Config} {fuel : Nat} {s : State}
  {m m' : Marker} {a o : Nat}

theorem Follows.markAndPush (hr : KeepsContents realloc) (hmax : 2 * maxEntries cfg ≤ intMax)
    (hf : Follows cfg fuel s m) (hg : getObject cfg fuel s.heap a = some (some o))
    (hm : GarbageCollector.markAndPush cfg fuel m o = some m') :
    ∃ s', s.markAndPush realloc cfg fuel o = some s' ∧ Follows cfg fuel s' m' ∧
      s'.wordAddr = s.wordAddr ∧ s'.wordEnd = s.wordEnd ∧ s'.segments = s.segments := by
  simp only [GarbageCollector.markAndPush, ← hf.heap] at hm
  obtain ⟨marked, hmarked, hm⟩ := Option.bind_eq_some_iff.mp hm
  cases marked with
  | true =>
    cases hm
    refine ⟨s, ?_, hf, rfl, rfl, rfl⟩
    simp only [State.markAndPush, hmarked, Option.bind_some, if_pos]
  | false =>
    simp only [Bool.false_eq_true, if_false] at hm
    obtain ⟨heap, hheap, rfl⟩ := Option.map_eq_some_iff.mp hm
    obtain ⟨h₀, occupied, ht⟩ := hf.inv.traced
    obtain ⟨heap', hheap', ht'⟩ := ht.push hg hmarked
    obtain rfl := Option.some.inj (hheap.symm.trans hheap')
    have hroom := hf.inv.room ht' hf.stack.holds
    obtain ⟨stack, hstack, hrefines⟩ := hf.stack.push hr hf.inv.positive (by omega) o
    have hrun : s.markAndPush realloc cfg fuel o =
        some { s with heap := heap, stack := stack, log := .push o :: s.log } := by
      simp only [State.markAndPush, hmarked, Option.bind_some, Bool.false_eq_true, if_false, hheap,
        Option.map_some, State.push, hstack]
    exact ⟨_, hrun, ⟨hf.inv.markAndPush hr hmax hg hrun, rfl, hrefines⟩, rfl, rfl, rfl⟩

theorem Follows.visitWord (hr : KeepsContents realloc) (hmax : 2 * maxEntries cfg ≤ intMax)
    (hf : Follows cfg fuel s m) (hlt : s.wordAddr < s.wordEnd) (hend : s.wordEnd + 8 ≤ 2 ^ 64)
    (hm : GarbageCollector.visitWord cfg fuel m s.wordAddr = some m') :
    ∃ s', step realloc cfg fuel s .step = some s' ∧ Follows cfg fuel s' m' ∧
      s'.wordAddr = s.wordAddr + 8 ∧ s'.wordEnd = s.wordEnd ∧ s'.segments = s.segments := by
  simp only [GarbageCollector.visitWord, ← hf.heap] at hm
  obtain ⟨found, hg, hm⟩ := Option.bind_eq_some_iff.mp hm
  have hnext : (s.wordAddr + 8) % 2 ^ 64 = s.wordAddr + 8 := Nat.mod_eq_of_lt (by omega)
  have hmoved : Follows cfg fuel { s with wordAddr := s.wordAddr + 8 } m :=
    ⟨hf.inv.move _ _ _, hf.heap, hf.stack⟩
  simp only [step, if_pos hlt, State.visitWord, hg, Option.bind_some, hnext]
  cases found with
  | none =>
    cases hm
    exact ⟨_, rfl, hmoved, rfl, rfl, rfl⟩
  | some object => exact hmoved.markAndPush hr hmax hg hm

/-- The loops of `scan` and `segment_traverse`, by induction on the words that are left. -/
theorem Follows.visitWords (hr : KeepsContents realloc) (hmax : 2 * maxEntries cfg ≤ intMax)
    (hf : Follows cfg fuel s m) (hend : s.wordEnd + 8 ≤ 2 ^ 64)
    (hm : GarbageCollector.visitWords cfg fuel m (words s.wordAddr s.wordEnd) = some m') :
    ∃ s', Steps realloc cfg fuel s s' ∧ Follows cfg fuel s' m' ∧
      ¬ s'.wordAddr < s'.wordEnd ∧ s'.segments = s.segments := by
  generalize haddrs : words s.wordAddr s.wordEnd = addrs at hm
  induction addrs generalizing s m with
  | nil =>
    cases hm
    refine ⟨s, .refl, hf, fun hlt => ?_, rfl⟩
    rw [words_of_lt hlt] at haddrs
    cases haddrs
  | cons addr addrs ih =>
    have hlt : s.wordAddr < s.wordEnd := by
      by_contra hge
      rw [words_of_le (Nat.le_of_not_lt hge)] at haddrs
      cases haddrs
    rw [words_of_lt hlt, List.cons.injEq] at haddrs
    obtain ⟨rfl, haddrs⟩ := haddrs
    rw [GarbageCollector.visitWords, List.foldlM_cons] at hm
    obtain ⟨m₁, hm₁, hm⟩ := Option.bind_eq_some_iff.mp hm
    obtain ⟨s₁, hs₁, hf₁, haddr, hstop, hseg⟩ := hf.visitWord hr hmax hlt hend hm₁
    obtain ⟨s', hs', hf', hdone, hseg'⟩ := ih hf₁ (hstop ▸ hend) (by rw [haddr, hstop, haddrs]) hm
    exact ⟨s', .head hs₁ hs', hf', hdone, hseg'.trans hseg⟩

theorem Follows.scan (hroom : RoomAbove cfg) (hr : KeepsContents realloc)
    (hmax : 2 * maxEntries cfg ≤ intMax) (hf : Follows cfg fuel s m)
    (hdone : ¬ s.wordAddr < s.wordEnd) (hm : GarbageCollector.scan cfg fuel m a = some m') :
    ∃ s₁ s', s.scan cfg fuel a = some s₁ ∧ Steps realloc cfg fuel s₁ s' ∧
      Follows cfg fuel s' m' ∧ ¬ s'.wordAddr < s'.wordEnd ∧ s'.segments = s.segments := by
  simp only [GarbageCollector.scan, ← hf.heap] at hm
  obtain ⟨found, hg, hm⟩ := Option.bind_eq_some_iff.mp hm
  simp only [State.scan, hg, Option.bind_some]
  cases found with
  | none =>
    cases hm
    exact ⟨s, s, rfl, .refl, hf, hdone, rfl⟩
  | some object =>
    obtain ⟨size, hsize, hm⟩ := Option.bind_eq_some_iff.mp hm
    obtain ⟨h₀, occupied, ht⟩ := hf.inv.traced
    have hend : object + size + 8 ≤ 2 ^ 64 := by
      rw [ht.same.getObject] at hg
      rw [ht.same.getObjectSize] at hsize
      exact scan_end_le hroom ht.tree hg hsize
    have hloop : Follows cfg fuel { s with wordAddr := object, wordEnd := object + size } m :=
      ⟨hf.inv.move _ _ _, hf.heap, hf.stack⟩
    obtain ⟨s', hs', hrest⟩ := hloop.visitWords hr hmax hend hm
    refine ⟨_, s', ?_, hs', hrest⟩
    have hsum : (object + size) % 2 ^ 64 = object + size := Nat.mod_eq_of_lt (by omega)
    simp only [hsize, Option.map_some, hsum]

/-- The loop of `closure`, by induction on its iterations. -/
theorem Follows.closure (hroom : RoomAbove cfg) (hr : KeepsContents realloc)
    (hmax : 2 * maxEntries cfg ≤ intMax) (hf : Follows cfg fuel s m)
    (hdone : ¬ s.wordAddr < s.wordEnd) {steps : Nat}
    (hm : GarbageCollector.closure cfg fuel steps m = some m') :
    ∃ s', Steps realloc cfg fuel s s' ∧ Follows cfg fuel s' m' ∧
      ¬ s'.wordAddr < s'.wordEnd ∧ s'.stack.isEmpty = true ∧ s'.segments = s.segments := by
  induction steps generalizing s m with
  | zero => cases hm
  | succ steps ih =>
    rw [GarbageCollector.closure] at hm
    cases hpop : m.stack.pop with
    | none =>
      have hempty : m.stack.data = [] := by
        cases hdata : m.stack.data with
        | nil => rfl
        | cons value data => simp [Stack.pop, hdata] at hpop
      rw [hpop] at hm
      cases hm
      exact ⟨s, .refl, hf, hdone, hf.stack.holds.isEmpty_iff.mpr hempty, rfl⟩
    | some popped =>
      obtain ⟨curElem, rest⟩ := popped
      rw [hpop] at hm
      obtain ⟨m₁, hm₁, hm⟩ := Option.bind_eq_some_iff.mp hm
      obtain ⟨stack, hstack, hrefines⟩ := hf.stack.pop hpop
      have hne : s.stack.isEmpty = false := by
        refine Bool.eq_false_of_not_eq_true fun hempty => ?_
        rw [Stack.pop, hf.stack.holds.isEmpty_iff.mp hempty] at hpop
        cases hpop
      obtain ⟨curElem', stack', hstack', hinv⟩ := hf.inv.pop hne
      obtain ⟨rfl, rfl⟩ := Prod.mk.inj (Option.some.inj (hstack.symm.trans hstack'))
      have hpopped : Follows cfg fuel { s with stack := stack, log := .pop curElem :: s.log }
          { m with stack := rest } := ⟨hinv, hf.heap, hrefines⟩
      obtain ⟨s₁, s₂, hscan, hs₂, hf₂, hdone₂, hseg₂⟩ := hpopped.scan hroom hr hmax hdone hm₁
      obtain ⟨s', hs', hf', hdone', hempty', hseg'⟩ := ih hf₂ hdone₂ hm
      have hfirst : step realloc cfg fuel s .step = some s₁ := by
        simp only [step, if_neg hdone, hne, Bool.false_eq_true, if_false, State.closure, hstack,
          hscan]
      exact ⟨s', .head hfirst (hs₂.trans hs'), hf', hdone', hempty', hseg'.trans hseg₂⟩

theorem Follows.segmentTraverse (hroom : RoomAbove cfg) (hr : KeepsContents realloc)
    (hmax : 2 * maxEntries cfg ≤ intMax) (hf : Follows cfg fuel s m)
    (hdone : ¬ s.wordAddr < s.wordEnd) (hempty : s.stack.isEmpty = true) {segment : Nat × Nat}
    {segments : List (Nat × Nat)} (hseg : s.segments = segment :: segments)
    (hend : segment.2 + 8 ≤ 2 ^ 64)
    (hm : GarbageCollector.segmentTraverse cfg fuel m segment = some m') :
    ∃ s', Steps realloc cfg fuel s s' ∧ Follows cfg fuel s' m' ∧
      ¬ s'.wordAddr < s'.wordEnd ∧ s'.stack.isEmpty = true ∧ s'.segments = segments := by
  rw [GarbageCollector.segmentTraverse, Option.ite_none_right_eq_some] at hm
  obtain ⟨hassert, hm⟩ := hm
  obtain ⟨m₁, hm₁, hm⟩ := Option.bind_eq_some_iff.mp hm
  have hfirst : step realloc cfg fuel s .step =
      some { s with wordAddr := segment.1, wordEnd := segment.2, segments := segments } := by
    simp only [step, if_neg hdone, if_pos hempty, State.segmentTraverse, hseg, if_pos hassert]
  have hloop : Follows cfg fuel
      { s with wordAddr := segment.1, wordEnd := segment.2, segments := segments } m :=
    ⟨hf.inv.move _ _ _, hf.heap, hf.stack⟩
  obtain ⟨s₁, hs₁, hf₁, hdone₁, hseg₁⟩ := hloop.visitWords hr hmax hend hm₁
  obtain ⟨s', hs', hf', hdone', hempty', hseg'⟩ := hf₁.closure hroom hr hmax hdone₁ hm
  exact ⟨s', .head hfirst (hs₁.trans hs'), hf', hdone', hempty', hseg'.trans hseg₁⟩

/-- The calls of `segment_traverse`, by induction on the segments that are left. -/
theorem Follows.mark (hroom : RoomAbove cfg) (hr : KeepsContents realloc)
    (hmax : 2 * maxEntries cfg ≤ intMax) (hf : Follows cfg fuel s m)
    (hdone : ¬ s.wordAddr < s.wordEnd) (hempty : s.stack.isEmpty = true)
    (hends : ∀ segment, segment ∈ s.segments → segment.2 + 8 ≤ 2 ^ 64)
    (hm : GarbageCollector.mark cfg fuel m s.segments = some m') :
    ∃ s', Steps realloc cfg fuel s s' ∧ Returned s' ∧ Follows cfg fuel s' m' := by
  generalize hsegs : s.segments = segments at hends hm
  induction segments generalizing s m with
  | nil =>
    cases hm
    exact ⟨s, .refl, ⟨hdone, hempty, hsegs⟩, hf⟩
  | cons segment segments ih =>
    rw [GarbageCollector.mark, List.foldlM_cons] at hm
    obtain ⟨m₁, hm₁, hm⟩ := Option.bind_eq_some_iff.mp hm
    obtain ⟨s₁, hs₁, hf₁, hdone₁, hempty₁, hsegs₁⟩ := hf.segmentTraverse hroom hr hmax hdone hempty
      hsegs (hends segment List.mem_cons_self) hm₁
    obtain ⟨s', hs', hreturned, hf'⟩ := ih hf₁ hdone₁ hempty₁ hsegs₁
      (fun q hq => hends q (List.mem_cons_of_mem _ hq)) hm
    exact ⟨s', hs₁.trans hs', hreturned, hf'⟩

end Simulation

section Calls

variable {realloc : List Nat → Nat → List Nat} {cfg : Config} {fuel : Nat} {s : State} {h : Heap}
  {free occupied : BlockTree} {spare : List Nat} {segments : List (Nat × Nat)} {m' : Marker}

/-- The stack of the recursion when a call begins. -/
def emptied (stack : ArrayStack) : Stack := ⟨[], stack.capacity.toNat⟩

theorem enter_follows (hi : Inv cfg fuel s) (hs : Returned s) (hw : WellOccupied cfg h)
    (segments : List (Nat × Nat)) :
    Follows cfg fuel (.enter s.stack s.fault h segments) ⟨h, emptied s.stack⟩ := by
  obtain ⟨-, hempty, -⟩ := hs
  obtain ⟨l, -, hholds⟩ := hi.lifo
  obtain rfl := hholds.isEmpty_iff.mp hempty
  have hcap : s.stack.capacity = (s.stack.capacity.toNat : Int) :=
    (Int.toNat_of_nonneg hi.positive.le).symm
  exact ⟨hi.enter hempty hw segments, rfl, hholds, hcap⟩

/-- A call whose recursion has a result returns, with that heap and that stack. -/
theorem call_returns (hroom : RoomAbove cfg) (hr : KeepsContents realloc)
    (hmax : 2 * maxEntries cfg ≤ intMax) (hi : Inv cfg fuel s) (hs : Returned s)
    (hw : WellOccupied cfg h)
    (hends : ∀ segment, segment ∈ segments → segment.2 + 8 ≤ 2 ^ 64)
    (hm : mark cfg fuel ⟨h, emptied s.stack⟩ segments = some m') :
    ∃ s', Steps realloc cfg fuel (.enter s.stack s.fault h segments) s' ∧ Returned s' ∧
      s'.heap = m'.heap ∧ Refines s'.stack m'.stack := by
  have hempty : (State.enter s.stack s.fault h segments).stack.isEmpty = true := hs.2.1
  obtain ⟨s', hs', hreturned, hf'⟩ := (enter_follows hi hs hw segments).mark hroom hr hmax
    (Nat.not_lt_zero 0) hempty hends hm
  exact ⟨s', hs', hreturned, hf'.heap, hf'.stack⟩

/-- From clean heaps every call returns, and then the live objects are the marked ones. -/
theorem call_marks_live (hroom : RoomAbove cfg) (hr : KeepsContents realloc)
    (hmax : 2 * maxEntries cfg ≤ intMax) (hi : Inv cfg fuel s) (hs : Returned s)
    (hc : ExactMarking.Clean cfg fuel h occupied segments)
    (hfew : occupied.size ≤ cfg.treenodeCount) (hf : occupied.size < fuel)
    (hsteps : 2 * cfg.heapSize < fuel)
    (hends : ∀ segment, segment ∈ segments → segment.2 + 8 ≤ 2 ^ 64) :
    ∃ s', Steps realloc cfg fuel (.enter s.stack s.fault h segments) s' ∧ Returned s' ∧
      ∀ o, IsStart cfg h o →
        (isMarked cfg fuel s'.heap o = some true ↔ ExactMarking.Live cfg fuel h segments o) := by
  obtain ⟨m', c', hm', ha', -, hlive⟩ :=
    ExactMarking.mark_colours hc hf hsteps (show (emptied s.stack).data = [] from rfl)
  have hw : WellOccupied cfg h := ⟨occupied, hc.tree, hc.disjoint, hfew⟩
  obtain ⟨s', hs', hreturned, hheap, -⟩ := call_returns hroom hr hmax hi hs hw hends hm'
  refine ⟨s', hs', hreturned, fun o ho => ?_⟩
  rw [hheap, ← hlive, ha'.marked, and_iff_right ho]

theorem wellOccupied_of_tiled (hs : Shape cfg h.large free occupied spare)
    (ht : LargeTiling.Tiled cfg free occupied) : WellOccupied cfg h := by
  have hlen := hs.length
  refine ⟨occupied, ⟨hs.occupiedTree, ht.ordered.searchTree, fun v hv => ?_⟩, ht.ordered.1, ?_⟩
  · exact (ht.inside (List.mem_append_right _ hv)).2
  · omega

/-- The runs of the allocator that keep its blocks apart leave an occupied tree as `mark` needs
it. -/
theorem allocator_wellOccupied
    (hr : Transition.Reachable (· = initLargeAllocator cfg) (LargeTiling.step cfg)
      LargeTiling.KeepsTiling h.large) : WellOccupied cfg h := by
  obtain ⟨free, occupied, spare, hshape, htiled⟩ := LargeTiling.reachable_tiledState hr
  exact wellOccupied_of_tiled hshape htiled

end Calls

end GarbageCollector.MarkStack
