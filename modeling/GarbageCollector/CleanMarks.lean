import GarbageCollector.FailedAllocation
import GarbageCollector.LargeRuns

/-!
# The marks before a collection

A failing request for a small size walks through the blocks of its size, whose bits it clears one
by one, and then zeroes the bitmaps of the blocks listed for the other sizes. Blocks in the cache
for another size and blocks that are in no list keep their marks, and a failing request for a large
size clears nothing: the next `mark` meets marks of an earlier collection.
-/

namespace GarbageCollector.CleanMarks

open LinkedList Collector FailedAllocation

/-- No bit of a bitmap and no flag of the occupied tree is set. -/
structure NoMark (cfg : Config) (h : Heap) : Prop where
  bits : ∀ b, b < cfg.blocksCount → NoMarks cfg h.mem b
  flags : ∀ i, Below h.large.nodes h.large.occupiedRoot i → (h.large.nodes i).block.isMarked = false

/-- Each set bit lies in a block listed for another size, or it belongs to a whole slot of a block
that is listed or cached for the small size `n`. -/
def Cleared (cfg : Config) (s : SmallHeap) (cache : NodesCache) (n : Nat) : Prop :=
  ∀ b j, b < cfg.blocksCount → j < 8 * bitmapBytesCount → markBit cfg s.mem b j = true →
    n ≤ maxObjectSize ∧
      ((∃ i, InRange i ∧ i ≠ n ∧ OnList s.nextNode (s.segregList i) b) ∨
        j < slotCount n ∧ (OnList s.nextNode (s.segregList n) b ∨ cache n = some b))

/-- A failing attempt clears all bits, and attempts take nodes without children. -/
def ClearsMarks (cfg : Config) (s : State) (a : Action) : Prop :=
  TakesChildless s a ∧
    match a with
    | .malloc n fuel => 1 ≤ n → n ≤ cfg.heapSize → Fails cfg fuel s.gc n →
        Cleared cfg s.gc.heap.small s.gc.nodesCache n
    | _ => True

section Call

variable {cfg : Config} {s s' : SmallHeap} {place : Nat → Place (Fin 1)}
  {cache cache' : NodesCache} {n fuel : Nat}

/-- A call that finds no block leaves no bit that `Cleared` names. -/
theorem failed_call_clears (h : Solo cfg s ⟨.idle, cache⟩ place) (hn : InRange n)
    (hc : Cleared cfg s cache n)
    (hrun : allocateSmallObject cfg fuel s cache n = some (s', cache', none)) :
    ∀ b, b < cfg.blocksCount → NoMarks cfg s'.mem b := by
  obtain ⟨place', ha, -⟩ := attempt_run (Q := fun _ _ _ => True) h hn trivial
    (fun _ _ _ _ _ _ _ _ => trivial) hrun
  obtain ⟨⟨hlist, hcache⟩, hfilled⟩ := ha.filled
  intro b hb j hj
  refine Bool.eq_false_of_not_eq_true fun hbit => ?_
  obtain ⟨-, hc⟩ := hc b j hb hj (ha.bits b j hj hbit)
  rcases hc with ⟨i, hi, hne, hon⟩ | ⟨hlt, hat⟩
  · -- a block listed for another size stays listed, and its bitmap is zeroed
    have hplace := ((h.owned.segreg i hi.lt).onList_iff.mp hon).2
    have hzero := hfilled b i hb hi (ha.listed b i hplace hne) j hj
    rw [hzero] at hbit
    cases hbit
  · -- no block of size `n` is left, so this one has been walked through
    have hhead : headerSize cfg s.mem b = n := by
      rcases hat with hon | hc
      · have hplace := ((h.owned.segreg n hn.lt).onList_iff.mp hon).2
        have hheader := h.owned.header b hb
        rw [hplace] at hheader
        exact hheader.1
      · have hplace := (h.owned.cached 0 n b hc).2.2
        have hheader := h.owned.header b hb
        rw [hplace] at hheader
        exact hheader.2.1
    have huse := (h.bits b j hb hj (ha.bits b j hj hbit)).2.1
    have hhead' : headerSize cfg s'.mem b = n := (ha.used b huse).2.trans hhead
    obtain ⟨-, -, hahead⟩ := ha.solo.bits b j hb hj hbit
    rw [hhead'] at hahead
    have hahead := hahead hlt
    have hheader := ha.solo.owned.header b hb
    cases hp : place' b with
    | empty | fresh =>
      have huse' := (ha.used b huse).1
      rw [hp] at huse'
      exact huse'
    | segreg m =>
      rw [hp] at hheader
      obtain rfl : m = n := hheader.1.symm.trans hhead'
      have hon := (ha.solo.owned.segreg m hn.lt).onList_iff.mpr ⟨hb, hp⟩
      rw [hlist] at hon
      exact not_onList_none hon
    | owned t m =>
      rw [hp] at hheader
      obtain rfl : m = n := hheader.2.1.symm.trans hhead'
      obtain rfl : t = 0 := Subsingleton.elim _ _
      have hc := ha.solo.cached (n := m) id hp
      exact absurd (hcache.symm.trans hc) (by simp)
    | abandoned =>
      rw [hp] at hahead
      exact hahead

end Call

section Runs

variable {cfg : Config} {roots : Roots cfg} {fuel n o : Nat} {g g' : Gc} {h : Heap}
  {s s' : State} {a : Action}

theorem NoMark.unmarked (hc : NoMark cfg h) (ho : IsStart cfg h o) :
    isMarked cfg fuel h o ≠ some true := by
  rcases ho with hl | ⟨b, k, hs⟩
  · simp only [isMarked, if_pos hl, ne_eq, Option.bind_eq_some_iff, not_exists, not_and]
    intro found hfound
    cases found with
    | none => simp
    | some i => simp only [hc.flags i (searchBst_below hfound).1, Option.some.injEq, reduceCtorEq,
        not_false_eq_true]
  · rw [hs.isMarked, hc.bits b hs.block k hs.index_lt]
    simp

theorem failed_attempt_clears (h : Between cfg g) (hn : 1 ≤ n)
    (hc : Cleared cfg g.heap.small g.nodesCache n)
    (hrun : allocateNewObject cfg fuel g n = some (g', none)) :
    ∀ b, b < cfg.blocksCount → NoMarks cfg g'.heap.mem b := by
  obtain ⟨place, hsolo⟩ := h.solo
  rw [allocateNewObject] at hrun
  split at hrun
  · rename_i hin
    obtain ⟨⟨small, cache, r⟩, hsmall, he⟩ := Option.map_eq_some_iff.mp hrun
    cases he
    exact failed_call_clears hsolo hin hc hsmall
  · rename_i hout
    have hsame : g'.heap.small = g.heap.small := by
      split at hrun
      · obtain ⟨⟨large, r⟩, -, he⟩ := Option.map_eq_some_iff.mp hrun
        cases he
        rfl
      · cases hrun
        rfl
    intro b hb j hj
    rw [Heap.mem, hsame]
    refine Bool.eq_false_of_not_eq_true fun hbit => ?_
    have hsmall := (hc b j hb hj hbit).1
    omega

/-- After a failing first attempt no bit is set. -/
def BitsClear (cfg : Config) (s : State) : Prop :=
  ∀ n, s.phase = .failed n → ∀ b, b < cfg.blocksCount → NoMarks cfg s.gc.heap.mem b

theorem outcome_bitsClear (hi : Inv cfg s) (h : BitsClear cfg s) (hok : ClearsMarks cfg s a)
    (hs : Outcome cfg roots s a s') : BitsClear cfg s' := by
  cases hs with
  | refused => exact h
  | @malloc n fuel p hphase hn _ hrun =>
    obtain ⟨g', res⟩ := p
    cases res with
    | some r => simp [BitsClear, State.attempted]
    | none =>
      rintro m ⟨⟩
      exact failed_attempt_clears (hi.between (by simp [hphase])) hn.1
        (hok.2 hn.1 hn.2 (fails_of_none hrun)) hrun
  | retry =>
    intro m hm
    rw [State.attempted] at hm
    split at hm <;> cases hm
  | store hphase =>
    intro m hm
    cases hphase.symm.trans hm
  | mark | sweep =>
    rintro m ⟨⟩

theorem reachable_noMark (h : Reachable cfg roots (ClearsMarks cfg) s)
    (hphase : s.phase = .failed n) : NoMark cfg s.gc.heap := by
  have hbits : BitsClear cfg s := by
    refine h.invariant_of (fun _ hr => reachable_inv hr) ?_ fun _ _ _ hi hb hok hs =>
      outcome_bitsClear hi hb hok (step_outcome hs)
    rintro _ ⟨m, -, rfl⟩
    nofun
  have hlarge : LargeInv cfg False s := reachable_largeInv h (fun _ _ hok => hok.1) False.elim
  obtain ⟨free, occupied, spare, ht, hclear⟩ := hlarge
  refine ⟨hbits n hphase, fun i hi => ?_⟩
  obtain ⟨v, hv, rfl⟩ := List.mem_map.mp ((below_iff ht.shape.occupiedTree i).mp hi)
  rw [ht.shape.occupiedTree.block_of_mem hv]
  exact hclear (by simp [hphase]) v hv

/-- In runs whose failing attempts clear all bits no mark is left when a collection starts, so
`mark_and_push` finds every object unmarked that it has not pushed itself. -/
theorem no_mark_left (h : Reachable cfg roots (ClearsMarks cfg) s) (hphase : s.phase = .failed n) :
    NoMark cfg s.gc.heap ∧
      ∀ fuel o, IsStart cfg s.gc.heap o → isMarked cfg fuel s.gc.heap o ≠ some true := by
  have hmark := reachable_noMark h hphase
  exact ⟨hmark, fun fuel o ho => hmark.unmarked ho⟩

end Runs

/-- Two requests for the whole large heap start a collection each. The first one marks the object
at 4176, and nothing has cleared its bit when the second one starts. -/
theorem stale_mark_left :
    ¬ ∀ (cfg : Config) (roots : Roots cfg) (s : State) (n : Nat),
      Reachable cfg roots Transition.anyStep s → s.phase = .failed n → NoMark cfg s.gc.heap := by
  intro h
  obtain ⟨s, hr, hphase, hbit⟩ := (Transition.Reachable.init start_start :
      Reachable oneBlock oneRoot Transition.anyStep start).exists_of_run
    [.malloc 8 8196, .store 104 4176, .malloc 4096 8196, .malloc 4096 8196, .mark 8196,
      .sweep 8196, .retry 8196, .malloc 4096 8196]
    (fun s => s.phase = .failed 4096 ∧ markBit oneBlock s.gc.heap.mem 0 0 = true)
    (by decide +kernel)
  have hclear := (h oneBlock oneRoot s 4096 hr hphase).bits 0 (by decide) 0 (by decide)
  rw [hbit] at hclear
  cases hclear

/-- No attempt fails while a bit is set. -/
def NoBitSet (cfg : Config) (s : State) (a : Action) : Prop :=
  TakesChildless s a ∧
    match a with
    | .malloc n fuel => Fails cfg fuel s.gc n →
        ∀ b, b < cfg.blocksCount → ∀ j, j < 8 * bitmapBytesCount →
          markBit cfg s.gc.heap.mem b j = false
    | _ => True

instance (cfg : Config) (s : State) (a : Action) : Decidable (NoBitSet cfg s a) :=
  match a with
  | .malloc _ _ => inferInstanceAs (Decidable (_ ∧ (_ → ∀ b, b < _ → ∀ j, j < _ → _)))
  | .mark _ | .sweep _ | .retry _ | .store _ _ => inferInstanceAs (Decidable (_ ∧ True))

theorem clearsMarks_of_noBitSet {cfg : Config} {s : State} {a : Action} (h : NoBitSet cfg s a) :
    ClearsMarks cfg s a := by
  refine ⟨h.1, ?_⟩
  cases a with
  | malloc n fuel =>
    intro _ _ hfails b j hb hj hbit
    exact absurd (hbit.symm.trans (h.2 hfails b hb j hj)) (by simp)
  | _ => trivial

/-- After the same first collection a request for 16 bytes fails: the block of size 8 is listed,
so its bit is cleared. -/
theorem no_mark_left_listed :
    ∃ s : State, s.phase = .failed 16 ∧ NoMark oneBlock s.gc.heap ∧
      isMarked oneBlock 8196 s.gc.heap 4176 ≠ some true := by
  obtain ⟨s, hr, hlist, hnext, hstep⟩ := (Transition.Reachable.init start_start :
      Reachable oneBlock oneRoot (NoBitSet oneBlock) start).exists_of_run
    [.malloc 8 8196, .store 104 4176, .malloc 4096 8196, .malloc 4096 8196, .mark 8196,
      .sweep 8196, .retry 8196]
    (fun s => s.gc.heap.small.segregList 8 = some 0 ∧ s.gc.heap.small.nextNode 0 = none ∧
      (step oneBlock oneRoot s (.malloc 16 8196)).any (fun s' =>
        decide (s'.phase = .failed 16 ∧ headerSize oneBlock s'.gc.heap.mem 0 = 8)) = true)
    (by decide +kernel)
  have hcount : oneBlock.blocksCount = 1 := rfl
  have hr' : Reachable oneBlock oneRoot (ClearsMarks oneBlock) s :=
    hr.mono fun _ _ hok => clearsMarks_of_noBitSet hok
  have hok : ClearsMarks oneBlock s (.malloc 16 8196) := by
    refine ⟨fun hlt => absurd hlt (by decide), fun _ _ _ b j hb _ _ => ⟨by decide, Or.inl ?_⟩⟩
    obtain rfl : b = 0 := by omega
    refine ⟨8, by decide, by decide, [0], ?_, List.mem_singleton_self 0⟩
    exact ⟨hlist, hnext⟩
  cases hs : step oneBlock oneRoot s (.malloc 16 8196) with
  | none => simp [hs] at hstep
  | some s' =>
    have hfinal : s'.phase = .failed 16 ∧ headerSize oneBlock s'.gc.heap.mem 0 = 8 := by
      simpa [hs] using hstep
    obtain ⟨hmark, hstart⟩ := no_mark_left (.step _ hr' hok hs) hfinal.1
    refine ⟨s', hfinal.1, hmark, hstart 8196 4176 (Or.inr ⟨0, 0, ?_⟩)⟩
    constructor
    · decide
    · rw [hfinal.2]
      decide
    · rw [hfinal.2]
      rfl
    · decide

end GarbageCollector.CleanMarks
