import GarbageCollector.SafeRuns
import GarbageCollector.SlotQueues

/-!
# When `gc_malloc` returns `NULL`

A request for a small size fails only when the live objects leave no room for it: after the
collection each block holds a live object, and each slot of the blocks of that size is live. For
this no bit may be set but those of live objects, so the bits that `mark` sets are followed first.
-/

namespace GarbageCollector.Exhaustion

open BinaryTree LinkedList Collector SafeRuns ExactMarking
open SlotQueues
open FailedAllocation (oneRoot start start_start)

section Induction

variable {cfg : Config} {fuel steps : Nat} {P : Heap → Prop} {m m' : Marker} {addrs : List Nat}
  {a : Nat} {segment : Nat × Nat} {segments : List (Nat × Nat)}

/-- Marking an object keeps `P`. -/
def KeptByMarks (cfg : Config) (fuel : Nat) (P : Heap → Prop) : Prop :=
  ∀ h h' o, P h → IsStart cfg h o → markObject cfg fuel h o = some h' → P h'

theorem visitWords_keeps (keep : KeptByMarks cfg fuel P) (hin : OccupiedInside cfg m.heap)
    (hm : visitWords cfg fuel m addrs = some m') (hP : P m.heap) : P m'.heap := by
  induction addrs generalizing m with
  | nil =>
    cases hm
    exact hP
  | cons w addrs ih =>
    rw [visitWords, List.foldlM_cons] at hm
    obtain ⟨m₁, hvisit, hm⟩ := Option.bind_eq_some_iff.mp hm
    have hframe : MarkFrame cfg m.heap m₁.heap :=
      visitWords_frame hin (show visitWords cfg fuel m [w] = some m₁ by
        rw [visitWords, List.foldlM_cons, hvisit]
        rfl)
    apply ih (hin.congr hframe.same) hm
    obtain ⟨found, hfound, hvisit⟩ := Option.bind_eq_some_iff.mp hvisit
    cases found with
    | none =>
      cases hvisit
      exact hP
    | some o =>
      obtain ⟨marked, -, hpush⟩ := Option.bind_eq_some_iff.mp hvisit
      split at hpush
      · cases hpush
        exact hP
      · obtain ⟨heap, hmark, rfl⟩ := Option.map_eq_some_iff.mp hpush
        exact keep m.heap heap o hP (getObject_start hin hfound) hmark

theorem closure_keeps (keep : KeptByMarks cfg fuel P) (hin : OccupiedInside cfg m.heap)
    (hm : closure cfg fuel steps m = some m') (hP : P m.heap) : P m'.heap := by
  induction steps generalizing m with
  | zero => cases hm
  | succ steps ih =>
    rw [closure] at hm
    cases hdata : m.stack.data with
    | nil =>
      simp only [Stack.pop, hdata, Option.some.injEq] at hm
      subst hm
      exact hP
    | cons o rest =>
      simp only [Stack.pop, hdata] at hm
      obtain ⟨m₁, hscan, hm⟩ := Option.bind_eq_some_iff.mp hm
      have hframe := scan_frame (m := { m with stack := { m.stack with data := rest } }) hin hscan
      apply ih (hin.congr hframe.same) hm
      obtain ⟨found, -, hscan⟩ := Option.bind_eq_some_iff.mp hscan
      cases found with
      | none =>
        cases hscan
        exact hP
      | some o =>
        obtain ⟨size, -, hscan⟩ := Option.bind_eq_some_iff.mp hscan
        exact visitWords_keeps (m := { m with stack := { m.stack with data := rest } }) keep hin
          hscan hP

/-- What holds before `mark` and is kept by each mark holds when it ends. -/
theorem mark_keeps (keep : KeptByMarks cfg fuel P) (hin : OccupiedInside cfg m.heap)
    (hm : mark cfg fuel m segments = some m') (hP : P m.heap) : P m'.heap := by
  induction segments generalizing m with
  | nil =>
    cases hm
    exact hP
  | cons segment segments ih =>
    rw [mark, List.foldlM_cons] at hm
    obtain ⟨m₁, hseg, hm⟩ := Option.bind_eq_some_iff.mp hm
    obtain ⟨hframe, -⟩ := segmentTraverse_frame hin hseg
    apply ih (hin.congr hframe.same) hm
    rw [segmentTraverse] at hseg
    split at hseg
    · obtain ⟨m₂, hvisit, hclosure⟩ := Option.bind_eq_some_iff.mp hseg
      have hframe' := visitWords_frame hin hvisit
      exact closure_keeps keep (hin.congr hframe'.same) hclosure
        (visitWords_keeps keep hin hvisit hP)
    · cases hseg

end Induction

/-- Each bit that is set belongs to a slot. -/
def BitsAtSlots (cfg : Config) (h : Heap) : Prop :=
  ∀ b j, b < cfg.blocksCount → j < 8 * bitmapBytesCount → markBit cfg h.mem b j = true →
    ∃ o, SlotStart cfg h b j o

section Bits

variable {cfg : Config} {fuel : Nat}

theorem bitsAtSlots_kept : KeptByMarks cfg fuel (BitsAtSlots cfg) := by
  intro h h' o hbits ho hm b j hb hj hbit
  have hsame : SameButMarks cfg h h' := (markObject_frame ho hm).same
  rcases ho with hl | ⟨c, k, hs⟩
  · simp only [markObject, if_pos hl, Option.map_eq_some_iff] at hm
    obtain ⟨found, -, rfl⟩ := hm
    obtain ⟨o', hs'⟩ : ∃ o', SlotStart cfg h b j o' := by
      cases found with
      | none => exact hbits b j hb hj hbit
      | some i => exact hbits b j hb hj hbit
    exact ⟨o', hs'.congr hsame⟩
  · have hin := hs.inSmall
    rw [markObject, if_neg (cfg.not_inLarge_of_inSmall hin), if_pos hin] at hm
    cases hm
    have hset : markBit cfg (setBitByAddress cfg h.mem o 1#8) b j =
        if b = c ∧ j = objectIndex cfg h.mem o then true else markBit cfg h.mem b j :=
      markBit_setBitByAddress hs.blockAddr_le hs.inBlock true hj
    have hbit' := hset.symm.trans hbit
    split at hbit'
    · rename_i heq
      obtain ⟨rfl, rfl⟩ := heq
      rw [hs.index]
      exact ⟨o, hs.congr hsame⟩
    · obtain ⟨o', hs'⟩ := hbits b j hb hj hbit'
      exact ⟨o', hs'.congr hsame⟩

end Bits

/-- Each block holds a live object, and each slot of the blocks for size `n` is live. -/
structure Exhausted (cfg : Config) (fuel : Nat) (h : Heap) (segments : List (Nat × Nat)) (n : Nat) :
    Prop where
  blocks : ∀ b, b < cfg.blocksCount → ∃ k o, SlotStart cfg h b k o ∧ Live cfg fuel h segments o
  slots : ∀ b, b < cfg.blocksCount → headerSize cfg h.mem b = n → ∀ k, k < slotCount n →
    Live cfg fuel h segments (cfg.slotAddr b n k)

section Swept

variable {cfg : Config} {fuel n : Nat} {s : SmallHeap}

/-- After a sweep nothing is left for size `n` exactly when each block has a mark and each slot
of the blocks of that size. -/
theorem nothingLeft_swept (hn : InRange n) :
    NothingLeft cfg (sweepSmallHeap cfg s) (fun _ => none) n ↔
      ∀ b, b < cfg.blocksCount → isBitmapEmpty s.mem (cfg.blockAddr b) = false ∧
        (headerSize cfg s.mem b = n → ∀ k, k < slotCount n → markBit cfg s.mem b k = true) := by
  have hswept := sweepSmallHeap_swept cfg s
  have hunmarked : ∀ b, unmarkedSlots cfg (sweepSmallHeap cfg s).mem n b = [] ↔
      ∀ k, k < slotCount n → markBit cfg s.mem b k = true := by
    intro b
    have hbits : ∀ k, k < slotCount n →
        markBit cfg (sweepSmallHeap cfg s).mem b k = markBit cfg s.mem b k := fun k hk =>
      hswept.markBit (hk.trans (slotCount_lt hn.1))
    simp only [unmarkedSlots, List.map_eq_nil_iff, List.filter_eq_nil_iff, List.mem_range,
      Bool.not_eq_true', Bool.not_eq_false]
    constructor
    · intro h k hk
      rw [← hbits k hk]
      exact h k hk
    · intro h k hk
      rw [hbits k hk]
      exact h k hk
  constructor
  · intro h b hb
    have hmarked : isBitmapEmpty s.mem (cfg.blockAddr b) = false := by
      apply Bool.eq_false_of_not_eq_true
      intro he
      have hlist := hswept.empty
      rw [h.empty] at hlist
      have hmem := mem_emptyBlocks.mpr ⟨hb, he⟩
      rw [show emptyBlocks cfg s.mem cfg.blocksCount = [] from hlist.unique rfl] at hmem
      cases hmem
    refine ⟨hmarked, fun hsize => (hunmarked b).mp (h.listed b ?_)⟩
    exact (hswept.segreg n hn.lt).onList_iff.mpr (mem_markedBlocks.mpr ⟨hb, hmarked, hsize⟩)
  · intro h
    constructor
    · intro b hb
      obtain ⟨hlt, -, hsize⟩ := mem_markedBlocks.mp ((hswept.segreg n hn.lt).onList_iff.mp hb)
      exact (hunmarked b).mpr ((h b hlt).2 hsize)
    · intro b hb
      cases hb
    · have hempty : emptyBlocks cfg s.mem cfg.blocksCount = [] := by
        rw [List.eq_nil_iff_forall_not_mem]
        intro b hb
        obtain ⟨hlt, he⟩ := mem_emptyBlocks.mp hb
        exact Bool.false_ne_true ((h b hlt).1.symm.trans he)
      have hlist := hswept.empty
      rw [hempty] at hlist
      exact hlist

end Swept

section Calls

variable {cfg : Config} {roots : Roots cfg} {s : State} {fuel fuel' n b k o : Nat} {g g' : Gc}
  {h h' : Heap} {p : Gc × Option Nat}

theorem slotStart_of_lt (hb : b < cfg.blocksCount) (hn : InRange n)
    (hsize : headerSize cfg h.mem b = n) (hk : k < slotCount n) :
    SlotStart cfg h b k (cfg.slotAddr b n k) := by
  have hend := (cfg.lt_slotCount_iff (i := b) hn.1).mp hk
  have hpos := getSizeWithAlignment_pos hn.1
  constructor
  · exact hb
  · exact hsize ▸ hn
  · rw [hsize]
  · simp only [cfg.slotAddr_succ] at hend
    omega

theorem slotStart_of_same (same : SameButMarks cfg h h') (hs : SlotStart cfg h' b k o) :
    SlotStart cfg h b k o := by
  have hsize := same.headerSize b
  constructor
  · exact hs.block
  · exact hsize ▸ hs.size
  · exact hsize ▸ hs.addr
  · exact hs.inBlock

/-- The bits that `mark` has left, as the sweep after a failed attempt meets them. -/
structure MarksLive (cfg : Config) (fuel : Nat) (h h' : Heap) (segments : List (Nat × Nat)) :
    Prop where
  same : SameButMarks cfg h h'
  atSlots : BitsAtSlots cfg h'
  live : ∀ b k o, SlotStart cfg h b k o →
    (markBit cfg h'.mem b k = true ↔ Live cfg fuel h segments o)

/-- The collection after a failed attempt ends, and its `mark` sets the bits of the live objects. -/
theorem mark_marksLive (h : Reachable cfg roots (Faultless cfg roots) s)
    (hphase : s.phase = .failed n) (hok : Faultless cfg roots s (.mark fuel))
    (hfuel : depth cfg < fuel) :
    ∃ g, stopAndMark cfg fuel roots.segments s.gc = some g ∧ Marked cfg g ∧
      MarksLive cfg fuel s.gc.heap g.heap roots.segments ∧
      ∃ g', GarbageCollector.sweep cfg fuel g = some g' := by
  have hi : Between cfg s.gc := (reachable_inv h).between (by simp [hphase])
  obtain ⟨free, occupied, spare, ht, hclear⟩ : LargeInv cfg True s :=
    reachable_largeInv h (fun _ _ hok => hok.clears.1) fun _ _ _ hok => hok.oneSided
  have hnone := CleanMarks.reachable_noMark (h.mono fun _ _ hok => hok.clears) hphase
  have hclean : Clean cfg fuel s.gc.heap occupied roots.segments :=
    clean_of_safe ht (hclear (by simp [hphase])) hnone hok.pointers
  have hlen := ht.shape.length
  simp only [depth] at hfuel
  obtain ⟨m, c, hm, hagrees, -, hlive⟩ :=
    mark_colours hclean (by omega : occupied.size < fuel) (by omega) hi.stack
  have hstop : stopAndMark cfg fuel roots.segments s.gc =
      some ⟨m.heap, clearCache s.gc.nodesCache, m.stack⟩ := by
    rw [stopAndMark, hm]
    rfl
  obtain ⟨hmarked, hframe⟩ := stopAndMark_marked hi hstop
  have hsame : SameButMarks cfg s.gc.heap m.heap := hframe.same
  have hshape := (ht.mark hframe).shape
  obtain ⟨large, hlarge, -⟩ := sweepLargeHeap_repr hshape (by omega : cfg.treenodeCount + 1 < fuel)
  refine ⟨_, hstop, hmarked, ?_, _, Option.map_eq_some_iff.mpr ⟨large, hlarge, rfl⟩⟩
  constructor
  · exact hsame
  · apply mark_keeps bitsAtSlots_kept hi.inside.occupied hm
    intro b j hb hj hbit
    rw [hnone.bits b hb j hj] at hbit
    cases hbit
  · intro b k o hs
    have hstart : IsStart cfg s.gc.heap o := Or.inr ⟨b, k, hs⟩
    calc markBit cfg m.heap.mem b k = true
        ↔ isMarked cfg fuel m.heap o = some true := by
          rw [(hs.congr hsame).isMarked, Option.some.injEq]
      _ ↔ o ∈ c.marked := by rw [hagrees.marked, and_iff_right hstart]
      _ ↔ Live cfg fuel s.gc.heap roots.segments o := hlive o

/-- With the bits of the live objects only, what a sweep leaves nothing of. -/
theorem MarksLive.exhausted_iff {segments : List (Nat × Nat)} (hn : InRange n)
    (hm : MarksLive cfg fuel h h' segments) :
    NothingLeft cfg (sweepSmallHeap cfg h'.small) (fun _ => none) n ↔
      Exhausted cfg fuel h segments n := by
  rw [nothingLeft_swept hn]
  constructor
  · intro hall
    constructor
    · intro b hb
      have hne : ¬ ∀ j, j < 8 * bitmapBytesCount → markBit cfg h'.mem b j = false := by
        rw [← isBitmapEmpty_iff, Bool.not_eq_true]
        exact (hall b hb).1
      push Not at hne
      obtain ⟨j, hj, hbit⟩ := hne
      have hset : markBit cfg h'.mem b j = true := by simpa using hbit
      obtain ⟨o, hs⟩ := hm.atSlots b j hb hj hset
      have hs' := slotStart_of_same hm.same hs
      exact ⟨j, o, hs', (hm.live b j o hs').mp hset⟩
    · intro b hb hsize k hk
      have hbit := (hall b hb).2 ((hm.same.headerSize b).trans hsize) k hk
      exact (hm.live b k _ (slotStart_of_lt hb hn hsize hk)).mp hbit
  · intro hex b hb
    constructor
    · obtain ⟨k, o, hs, hlive⟩ := hex.blocks b hb
      exact ConcurrentAlloc.not_empty_of_bit hs.index_lt ((hm.live b k o hs).mpr hlive)
    · intro hsize k hk
      have hsize' := (hm.same.headerSize b).symm.trans hsize
      exact (hm.live b k _ (slotStart_of_lt hb hn hsize' hk)).mpr (hex.slots b hb hsize' k hk)

/-- The attempt after a collection finds nothing exactly when the live objects leave no room. -/
theorem retry_none_iff (hmarked : Marked cfg g) (hn : InRange n) {segments : List (Nat × Nat)}
    (hlive : MarksLive cfg fuel h g.heap segments)
    (hsweep : GarbageCollector.sweep cfg fuel' g = some g')
    (hretry : allocateNewObject cfg fuel' g' n = some p) :
    p.2 = none ↔ Exhausted cfg fuel h segments n := by
  obtain ⟨large, -, rfl⟩ := Option.map_eq_some_iff.mp hsweep
  rw [allocateNewObject, if_pos ⟨hn.1, hn.2⟩] at hretry
  obtain ⟨⟨small, cache, res⟩, hcall, rfl⟩ := Option.map_eq_some_iff.mp hretry
  obtain ⟨q, hq⟩ : ∃ q, Lists cfg (sweepSmallHeap cfg g.heap.small) q := swept_lists g.heap.small
  rw [hmarked.cache] at hcall
  rw [← hlive.exhausted_iff hn]
  exact call_none_iff (swept_solo hmarked.small) hn hq.holds hcall

theorem attempt_returns (h : Between cfg g) (hn : InRange n)
    (hcalls : CallReturns.callDepth cfg ≤ fuel) :
    ∃ p, allocateNewObject cfg fuel g n = some p := by
  obtain ⟨place, hsolo⟩ := h.solo
  obtain ⟨p, hp⟩ := call_returns hsolo hn hcalls
  rw [allocateNewObject, if_pos ⟨hn.1, hn.2⟩, hp]
  exact ⟨_, rfl⟩

/-- `gc_malloc` for a small size returns, and what it returns is `NULL` exactly when the first
attempt fails and the objects that are live then leave no room: each block holds one of them, and
they fill the blocks of the size. -/
theorem malloc_null_iff (hs : Reachable cfg roots (Faultless cfg roots) s)
    (hphase : s.phase = .mutator) (hn : InRange n) (hfuel : depth cfg < fuel)
    (hcalls : CallReturns.callDepth cfg ≤ fuel) (hok : Faultless cfg roots s (.malloc n fuel))
    (hmark : ∀ g₁, allocateNewObject cfg fuel s.gc n = some (g₁, none) →
      Faultless cfg roots (s.attempted n (.failed n) (g₁, none)) (.mark fuel)) :
    ∃ p, gcMalloc cfg fuel roots.segments s.gc n = some p ∧
      (p.2 = none ↔ ∃ g₁, allocateNewObject cfg fuel s.gc n = some (g₁, none) ∧
        Exhausted cfg fuel g₁.heap roots.segments n) := by
  have hrange : ¬ (n < 1 ∨ cfg.heapSize < n) := by
    have hblock := Nat.le_of_dvd cfg.heapSize_pos cfg.blockSize_dvd
    obtain ⟨hpos, hle⟩ := hn
    simp only [maxObjectSize, blockSize] at hle hblock
    omega
  obtain ⟨⟨g₁, res₁⟩, hfirst⟩ :=
    attempt_returns ((reachable_inv hs).between (by simp [hphase])) hn hcalls
  rw [gcMalloc, if_neg hrange, hfirst, Option.bind_some]
  cases res₁ with
  | some r => exact ⟨_, rfl, by simp⟩
  | none =>
    have hstep : step cfg roots s (.malloc n fuel) =
        some (s.attempted n (.failed n) (g₁, none)) := by
      simp only [step, Action.Deep, if_pos hfuel, hphase, if_neg hrange, hfirst, Option.map_some]
    have hs₁ : Reachable cfg roots (Faultless cfg roots) (s.attempted n (.failed n) (g₁, none)) :=
      .step _ hs hok hstep
    obtain ⟨g₂, hstop, hmarked, hlive, g₃, hsweep⟩ :=
      mark_marksLive hs₁ rfl (hmark g₁ hfirst) hfuel
    obtain ⟨p, hretry⟩ := attempt_returns (sweep_between hmarked hsweep) hn hcalls
    have hcollect : callServiceThread cfg fuel roots.segments g₁ = some g₃ := by
      rw [callServiceThread, show stopAndMark cfg fuel roots.segments g₁ = some g₂ from hstop]
      exact hsweep
    refine ⟨p, by simp only [hcollect, Option.bind_some, hretry], ?_⟩
    rw [retry_none_iff hmarked hn hlive hsweep hretry]
    simp only [Option.some.injEq, Prod.mk.injEq, and_true, exists_eq_left']
    rfl

end Calls

/-- The block has two slots of 2008 bytes. The root refers to the first object, and this one to the
second: there is no room for a third. -/
theorem malloc_null_iff_chain :
    ∃ s : State, s.answers = [⟨6184, 2008, true, true⟩, ⟨4176, 2008, true, true⟩] ∧
      (∃ g, gcMalloc oneBlock 20500 oneRoot.segments s.gc 2008 = some (g, none)) ∧
      ∃ g₁, allocateNewObject oneBlock 20500 s.gc 2008 = some (g₁, none) ∧
        Exhausted oneBlock 20500 g₁.heap oneRoot.segments 2008 := by
  have hstart : Reachable oneBlock oneRoot (Checked oneBlock) start := .init start_start
  obtain ⟨s, hr, hphase, hanswers, hmalloc, hmark, hnull⟩ := hstart.exists_of_run
    [.malloc 2008 8196, .store 104 4176, .malloc 2008 8196, .store 4176 6184]
    (fun s => s.phase = .mutator ∧
      s.answers = [⟨6184, 2008, true, true⟩, ⟨4176, 2008, true, true⟩] ∧
      Checked oneBlock s (.malloc 2008 20500) ∧
      (allocateNewObject oneBlock 20500 s.gc 2008).all (fun p =>
        decide (Checked oneBlock (s.attempted 2008 (.failed 2008) p) (.mark 20500))) = true ∧
      (gcMalloc oneBlock 20500 oneRoot.segments s.gc 2008).all (fun p => p.2.isNone) = true)
    (by decide +kernel)
  have hs : Reachable oneBlock oneRoot (Faultless oneBlock oneRoot) s :=
    hr.mono fun _ _ hok => faultless_of_checked hok
  have hmark' : ∀ g₁, allocateNewObject oneBlock 20500 s.gc 2008 = some (g₁, none) →
      Faultless oneBlock oneRoot (s.attempted 2008 (.failed 2008) (g₁, none)) (.mark 20500) := by
    intro g₁ hfirst
    have hchecked := (Option.all_eq_true _ _).mp hmark (g₁, none) hfirst
    exact faultless_of_checked (decide_eq_true_iff.mp hchecked)
  obtain ⟨⟨g, res⟩, hrun, hiff⟩ := malloc_null_iff hs hphase (by decide : InRange 2008)
    (by decide : depth oneBlock < 20500) (by decide : CallReturns.callDepth oneBlock ≤ 20500)
    (faultless_of_checked hmalloc) hmark'
  obtain rfl : res = none := Option.isNone_iff_eq_none.mp ((Option.all_eq_true _ _).mp hnull _ hrun)
  exact ⟨s, hanswers, ⟨g, hrun⟩, hiff.mp rfl⟩

end GarbageCollector.Exhaustion
