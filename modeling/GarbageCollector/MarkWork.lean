import GarbageCollector.MarkSteps
import Mathlib.Algebra.BigOperators.Group.List.Basic

/-!
# The work of `mark`

A call of `mark` pushes every live object exactly once and scans it exactly once, so the number of
its steps is known in advance: each step pays for one word, one entry of the stack or one segment,
and each is paid for once.
-/

namespace GarbageCollector.MarkStack

open Bytes BinaryTree Lifo Relation ResolvedRange

/-- Iterations of a loop over the words from `start` to `stop`. -/
def loopSteps (start stop : Nat) : Nat := (stop - start + 7) / 8

/-- The start of the loop of `segment_traverse` and its iterations. -/
def segmentSteps (segment : Nat × Nat) : Nat := 1 + loopSteps segment.1 segment.2

section Costs

variable (cfg : Config) (fuel : Nat) (h : Heap)

def objectSteps (o : Nat) : Nat :=
  match getObjectSize cfg fuel h o with
  | some size => loopSteps o (o + size)
  | none => 0

/-- The pop of an entry and the iterations of `scan` for it. -/
def entrySteps (a : Nat) : Nat :=
  match getObject cfg fuel h a with
  | some (some o) => 1 + objectSteps cfg fuel h o
  | _ => 1

/-- What is still to be done when the stack holds `l`. -/
def owed (s : State) (l : List Nat) : Nat :=
  loopSteps s.wordAddr s.wordEnd + (l.map (entrySteps cfg fuel h)).sum +
    (s.segments.map segmentSteps).sum

end Costs

/-- The state after `k` steps, if none of them is refused. -/
def after (realloc : List Nat → Nat → List Nat) (cfg : Config) (fuel k : Nat) (s : State) :
    Option State :=
  (fun t : Option State => t.bind fun u => step realloc cfg fuel u .step)^[k] (some s)

theorem after_succ {realloc : List Nat → Nat → List Nat} {cfg : Config} {fuel k : Nat} {s : State} :
    after realloc cfg fuel (k + 1) s =
      (after realloc cfg fuel k s).bind fun u => step realloc cfg fuel u .step :=
  Function.iterate_succ_apply' _ _ _

theorem loopSteps_of_le {start stop : Nat} (h : ¬ start < stop) : loopSteps start stop = 0 := by
  rw [loopSteps]
  omega

theorem loopSteps_of_lt {start stop : Nat} (h : start < stop) :
    loopSteps start stop = loopSteps (start + 8) stop + 1 := by
  rw [loopSteps, loopSteps]
  omega

/-- After `k` steps of a call that began with the heap `h₀`: what has been done and what is owed is
what the segments and the pushed objects cost. -/
structure Account (cfg : Config) (fuel : Nat) (h₀ : Heap) (occupied : BlockTree) (budget k : Nat)
    (s : State) : Prop where
  traced : Traced cfg fuel h₀ occupied s.heap (pushes s.log)
  only : ∀ o, IsStart cfg h₀ o → isMarked cfg fuel s.heap o = some true → o ∈ pushes s.log
  loopEnd : s.wordEnd + 8 ≤ 2 ^ 64
  ends : ∀ segment, segment ∈ s.segments → segment.2 + 8 ≤ 2 ^ 64
  balance : ∀ l, replay s.log = some l →
    k + owed cfg fuel h₀ s l = budget + ((pushes s.log).map (entrySteps cfg fuel h₀)).sum

section Steps

variable {realloc : List Nat → Nat → List Nat} {cfg : Config} {fuel : Nat} {s s' : State}
  {h₀ : Heap} {occupied : BlockTree} {pushed : List Nat} {budget k a o : Nat}

/-- One word of the running loop is done. -/
theorem Account.next (ha : Account cfg fuel h₀ occupied budget k s)
    (hlt : s.wordAddr < s.wordEnd) :
    Account cfg fuel h₀ occupied budget (k + 1) { s with wordAddr := s.wordAddr + 8 } where
  traced := ha.traced
  only := ha.only
  loopEnd := ha.loopEnd
  ends := ha.ends
  balance := by
    intro l hl
    have hbalance := ha.balance l hl
    have hloop := loopSteps_of_lt hlt
    simp only [owed] at hbalance ⊢
    omega

theorem State.push_of_noFault (h : (s.push realloc o).fault = false) :
    ∃ stack, s.push realloc o = { s with stack := stack, log := .push o :: s.log } := by
  cases hpush : s.stack.push realloc o with
  | none => simp [State.push, hpush] at h
  | some stack => exact ⟨stack, by simp [State.push, hpush]⟩

theorem Account.markAndPush (ha : Account cfg fuel h₀ occupied budget k s)
    (hg : getObject cfg fuel s.heap a = some (some o))
    (hs : s.markAndPush realloc cfg fuel o = some s') (hsafe : s'.fault = false) :
    Account cfg fuel h₀ occupied budget k s' := by
  obtain ⟨marked, hm, hs⟩ := Option.bind_eq_some_iff.mp hs
  cases marked with
  | true =>
    cases hs
    exact ha
  | false =>
    obtain ⟨h', hmark, ht'⟩ := ha.traced.push hg hm
    simp only [Bool.false_eq_true, if_false, hmark, Option.map_some, Option.some.injEq] at hs
    subst hs
    obtain ⟨stack, hpush⟩ := State.push_of_noFault hsafe
    rw [hpush]
    refine ⟨ht', fun q hq hmarked => ?_, ha.loopEnd, ha.ends, fun l hl => ?_⟩
    · by_cases hqo : q = o
      · exact hqo ▸ List.mem_cons_self
      · refine List.mem_cons_of_mem o (ha.only q hq ?_)
        have hstart := (ht'.pushable o List.mem_cons_self).start
        obtain ⟨h'', hmark', -, -, hothers⟩ := markObject_spec (hstart.congr ha.traced.same) hm
        obtain rfl := Option.some.inj (hmark.symm.trans hmark')
        rwa [← hothers q (hq.congr ha.traced.same) hqo]
    · obtain ⟨l₀, hl₀, rfl⟩ := Option.map_eq_some_iff.mp hl
      have hbalance := ha.balance l₀ hl₀
      simp only [owed, pushes, List.map_cons, List.sum_cons] at hbalance ⊢
      omega

theorem Account.visitWord (ha : Account cfg fuel h₀ occupied budget k s)
    (hlt : s.wordAddr < s.wordEnd) (hs : s.visitWord realloc cfg fuel = some s')
    (hsafe : s'.fault = false) : Account cfg fuel h₀ occupied budget (k + 1) s' := by
  have hroom := ha.loopEnd
  have hnext : (s.wordAddr + 8) % 2 ^ 64 = s.wordAddr + 8 := Nat.mod_eq_of_lt (by omega)
  obtain ⟨found, hg, hs⟩ := Option.bind_eq_some_iff.mp hs
  rw [hnext] at hs
  cases found with
  | none =>
    cases hs
    exact ha.next hlt
  | some object => exact (ha.next hlt).markAndPush hg hs hsafe

/-- `scan` sets up the loop that its entry is to pay for. -/
theorem scan_cost (hroom : RoomAbove cfg) (ht : Traced cfg fuel h₀ occupied s.heap pushed)
    (hdone : ¬ s.wordAddr < s.wordEnd) (hend : s.wordEnd + 8 ≤ 2 ^ 64)
    (hs : s.scan cfg fuel a = some s') :
    ∃ addr stop, s' = { s with wordAddr := addr, wordEnd := stop } ∧ stop + 8 ≤ 2 ^ 64 ∧
      1 + loopSteps addr stop = entrySteps cfg fuel h₀ a := by
  obtain ⟨found, hg, hs⟩ := Option.bind_eq_some_iff.mp hs
  rw [ht.same.getObject] at hg
  cases found with
  | none =>
    cases hs
    refine ⟨s.wordAddr, s.wordEnd, rfl, hend, ?_⟩
    simp only [entrySteps, hg, loopSteps_of_le hdone]
  | some object =>
    obtain ⟨size, hsize, rfl⟩ := Option.map_eq_some_iff.mp hs
    rw [ht.same.getObjectSize] at hsize
    have hle := scan_end_le hroom ht.tree hg hsize
    have hsum : (object + size) % 2 ^ 64 = object + size := Nat.mod_eq_of_lt (by omega)
    refine ⟨object, object + size, by rw [hsum], hle, ?_⟩
    simp only [entrySteps, hg, objectSteps, hsize]

/-- The entry on top of the stack is exchanged for the loop over its words. -/
theorem Account.closure (ha : Account cfg fuel h₀ occupied budget k s) (hroom : RoomAbove cfg)
    (hdone : ¬ s.wordAddr < s.wordEnd) (hs : s.closure cfg fuel = some s')
    (hsafe : s'.fault = false) : Account cfg fuel h₀ occupied budget (k + 1) s' := by
  have hnone := loopSteps_of_le hdone
  simp only [State.closure] at hs
  cases hpop : s.stack.pop with
  | none =>
    rw [hpop] at hs
    cases hs
    cases hsafe
  | some popped =>
    obtain ⟨curElem, stack⟩ := popped
    rw [hpop] at hs
    obtain ⟨addr, stop, rfl, hstop, hcost⟩ :=
      scan_cost (s := { s with stack := stack, log := .pop curElem :: s.log }) hroom ha.traced
        hdone ha.loopEnd hs
    constructor
    · exact ha.traced
    · exact ha.only
    · exact hstop
    · exact ha.ends
    · intro l hl
      have hbalance := ha.balance (curElem :: l) (replay_of_pop hl)
      simp only [owed, pushes, List.map_cons, List.sum_cons] at hbalance ⊢
      omega

/-- The next segment is exchanged for the loop over its words. -/
theorem Account.segmentTraverse (ha : Account cfg fuel h₀ occupied budget k s)
    (hdone : ¬ s.wordAddr < s.wordEnd) (hs : s.segmentTraverse = some s') :
    Account cfg fuel h₀ occupied budget (k + 1) s' := by
  have hnone := loopSteps_of_le hdone
  have hends := ha.ends
  cases hseg : s.segments with
  | nil =>
    simp only [State.segmentTraverse, hseg] at hs
    cases hs
  | cons segment segments =>
    simp only [State.segmentTraverse, hseg, Option.ite_none_right_eq_some,
      Option.some.injEq] at hs
    obtain ⟨-, rfl⟩ := hs
    rw [hseg] at hends
    constructor
    · exact ha.traced
    · exact ha.only
    · exact hends segment List.mem_cons_self
    · exact fun q hq => hends q (List.mem_cons_of_mem _ hq)
    · intro l hl
      have hbalance := ha.balance l hl
      simp only [owed, hseg, List.map_cons, List.sum_cons, segmentSteps] at hbalance ⊢
      omega

theorem Account.step (ha : Account cfg fuel h₀ occupied budget k s) (hroom : RoomAbove cfg)
    (hs : step realloc cfg fuel s .step = some s') (hsafe : s'.fault = false) :
    Account cfg fuel h₀ occupied budget (k + 1) s' := by
  simp only [MarkStack.step] at hs
  split at hs
  · exact ha.visitWord ‹_› hs hsafe
  · split at hs
    · exact ha.segmentTraverse ‹_› hs
    · exact ha.closure hroom ‹_› hs hsafe

/-- The whole run of a call, by induction on its steps. -/
theorem Account.steps (ha : Account cfg fuel h₀ occupied budget 0 s) (hroom : RoomAbove cfg)
    (hr : KeepsContents realloc) (hmax : 2 * maxEntries cfg ≤ intMax) (hi : Inv cfg fuel s)
    (hs : Steps realloc cfg fuel s s') :
    ∃ k, after realloc cfg fuel k s = some s' ∧ Inv cfg fuel s' ∧
      Account cfg fuel h₀ occupied budget k s' := by
  induction hs with
  | refl => exact ⟨0, rfl, hi, ha⟩
  | tail _ hlast ih =>
    obtain ⟨k, hrun, hi', ha'⟩ := ih
    have hi'' := step_inv hr hmax hi' (show CallsWellOccupied cfg _ .step from trivial) hlast
    refine ⟨k + 1, ?_, hi'', ha'.step hroom hlast hi''.noFault⟩
    rw [after_succ, hrun]
    exact hlast

end Steps

section Calls

variable {realloc : List Nat → Nat → List Nat} {cfg : Config} {fuel : Nat} {s s' : State}
  {h : Heap} {occupied : BlockTree} {segments : List (Nat × Nat)} {budget k o : Nat}

theorem enter_account (hc : ExactMarking.Clean cfg fuel h occupied segments)
    (hfew : occupied.size ≤ cfg.treenodeCount)
    (hends : ∀ segment, segment ∈ segments → segment.2 + 8 ≤ 2 ^ 64) (stack : ArrayStack)
    (fault : Bool) :
    Account cfg fuel h occupied (segments.map segmentSteps).sum 0
      (.enter stack fault h segments) := by
  constructor
  · exact ⟨hc.tree, hfew, SameButMarks.refl, List.nodup_nil, nofun, nofun⟩
  · exact fun o ho hmarked => absurd hmarked (hc.unmarked ho)
  · exact Nat.le_of_ble_eq_true rfl
  · exact hends
  · intro l hl
    cases hl
    simp [owed, State.enter, loopSteps, pushes]

/-- Nothing is owed when the call has returned. -/
theorem Account.returned (ha : Account cfg fuel h occupied budget k s) (hi : Inv cfg fuel s)
    (hs : Returned s) : k = budget + ((pushes s.log).map (entrySteps cfg fuel h)).sum := by
  obtain ⟨hdone, hempty, hsegments⟩ := hs
  obtain ⟨l, hl, hholds⟩ := hi.lifo
  obtain rfl := hholds.isEmpty_iff.mp hempty
  have hbalance := ha.balance [] hl
  rw [owed, loopSteps_of_le hdone, hsegments] at hbalance
  exact hbalance

theorem entrySteps_of_live (hc : ExactMarking.Clean cfg fuel h occupied segments)
    (hf : occupied.size < fuel) (ho : ExactMarking.Live cfg fuel h segments o) :
    entrySteps cfg fuel h o = 1 + objectSteps cfg fuel h o := by
  obtain ⟨size, hresolved⟩ := hc.resolved hf ho
  rw [entrySteps, hresolved.self]

/-- A call of `mark` pushes the live objects, each once, and its steps are one for each segment
and each live object and one for each word in them. -/
theorem scans_each_object_once (hroom : RoomAbove cfg) (hr : KeepsContents realloc)
    (hmax : 2 * maxEntries cfg ≤ intMax) (hi : Inv cfg fuel s) (hs : Returned s)
    (hc : ExactMarking.Clean cfg fuel h occupied segments)
    (hfew : occupied.size ≤ cfg.treenodeCount) (hf : occupied.size < fuel)
    (hsteps : 2 * cfg.heapSize < fuel)
    (hends : ∀ segment, segment ∈ segments → segment.2 + 8 ≤ 2 ^ 64) :
    ∃ s', Returned s' ∧ (pushes s'.log).Nodup ∧
      (∀ o, o ∈ pushes s'.log ↔ ExactMarking.Live cfg fuel h segments o) ∧
      after realloc cfg fuel ((segments.map segmentSteps).sum +
        ((pushes s'.log).map fun o => 1 + objectSteps cfg fuel h o).sum)
        (.enter s.stack s.fault h segments) = some s' := by
  obtain ⟨s', hrun, hreturned, hmarked⟩ :=
    call_marks_live hroom hr hmax hi hs hc hfew hf hsteps hends
  have henter := hi.enter hs.2.1 ⟨occupied, hc.tree, hc.disjoint, hfew⟩ segments
  obtain ⟨k, hafter, hi', ha⟩ :=
    (enter_account hc hfew hends s.stack s.fault).steps hroom hr hmax henter hrun
  have hlive : ∀ o, o ∈ pushes s'.log ↔ ExactMarking.Live cfg fuel h segments o := by
    refine fun o => ⟨fun ho => ?_, fun ho => ?_⟩
    · exact (hmarked o (ha.traced.pushable o ho).start).mp (ha.traced.marked o ho)
    · obtain ⟨size, hresolved⟩ := hc.resolved hf ho
      exact ha.only o hresolved.start ((hmarked o hresolved.start).mpr ho)
  have hcosts : (pushes s'.log).map (entrySteps cfg fuel h) =
      (pushes s'.log).map fun o => 1 + objectSteps cfg fuel h o :=
    List.map_congr_left fun o ho => entrySteps_of_live hc hf ((hlive o).mp ho)
  have hk := ha.returned hi' hreturned
  rw [hcosts] at hk
  exact ⟨s', hreturned, ha.traced.once, hlive, hk ▸ hafter⟩

theorem scans_each_object_once_two_cells :
    ∃ k s', after zeroFilled oneBlock 8193 k
        (.enter (.create (List.replicate 16 0)) false ExactMarking.twoCells [(100, 108)]) =
        some s' ∧ Returned s' ∧ 4192 ∈ pushes s'.log := by
  have hwell : WellOccupied oneBlock ExactMarking.twoCells :=
    ⟨.nil, ExactMarking.twoCells_clean.tree, List.Pairwise.nil, Nat.zero_le _⟩
  have hinv : Inv oneBlock 8193
      (.enter (.create (List.replicate 16 0)) false ExactMarking.twoCells []) :=
    start_inv ⟨_, _, _, rfl, hwell, rfl⟩
  have hroom : RoomAbove oneBlock := ⟨by decide, by decide⟩
  have hbound : 2 * maxEntries oneBlock ≤ intMax := by decide
  obtain ⟨s', hreturned, -, hlive, hafter⟩ := scans_each_object_once hroom zeroFilled_keeps hbound
    hinv ⟨by decide, rfl, rfl⟩ ExactMarking.twoCells_clean (Nat.zero_le _) (by decide) (by decide)
    (by decide)
  refine ⟨_, s', hafter, hreturned, (hlive 4192).mpr ?_⟩
  apply Worklist.Reaches.step (a := 4176)
  · exact .source ⟨(100, 108), List.mem_singleton_self _, 100, by decide, by decide +kernel⟩
  · exact ⟨16, by decide +kernel, 4184, by decide, by decide +kernel⟩

end Calls

end GarbageCollector.MarkStack
