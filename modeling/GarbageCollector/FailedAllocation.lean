import GarbageCollector.CollectorInvariant

/-!
# What a failed allocation leaves behind

A call that finds no block zeroes the bitmaps of all listed blocks. After the first attempt a
collection sets the bits anew, after the second attempt nothing does: the blocks of the other
sizes have lost their marks, and the next call for such a size returns a marked slot.
-/

namespace GarbageCollector.FailedAllocation

open Bytes LinkedList Collector
open ConcurrentAlloc (MarkInv answer step_markInv swept_markInv)

/-- No block of another size has a marked whole slot. -/
def NoOther (cfg : Config) (m : Mem) (n : Nat) : Prop :=
  ∀ b, b < cfg.blocksCount → headerSize cfg m b ≠ n →
    ∀ k, k < slotCount (headerSize cfg m b) → markBit cfg m b k = false

instance (cfg : Config) (m : Mem) (n : Nat) : Decidable (NoOther cfg m n) :=
  inferInstanceAs (Decidable (∀ b, b < _ → _ → ∀ k, k < _ → _))

/-- The attempt returns `NULL`. -/
def Fails (cfg : Config) (fuel : Nat) (g : Gc) (n : Nat) : Prop :=
  (allocateNewObject cfg fuel g n).any (fun p => p.2.isNone) = true

instance (cfg : Config) (fuel : Nat) (g : Gc) (n : Nat) : Decidable (Fails cfg fuel g n) :=
  inferInstanceAs (Decidable (_ = true))

/-- A second attempt for a small size that fails finds no marked slot of another size. -/
def SparesMarked (cfg : Config) (s : State) : Action → Prop
  | .retry fuel =>
    match s.phase with
    | .swept n => n ≤ maxObjectSize → Fails cfg fuel s.gc n → NoOther cfg s.gc.heap.mem n
    | _ => True
  | _ => True

instance (cfg : Config) (s : State) (a : Action) :
    Decidable (SparesMarked cfg s a) :=
  match s, a with
  | ⟨_, .swept _, _, _⟩, .retry _ => inferInstanceAs (Decidable (_ → Fails _ _ _ _ → NoOther _ _ _))
  | ⟨_, .mutator, _, _⟩, .retry _ | ⟨_, .failed _, _, _⟩, .retry _ | ⟨_, .marked _, _, _⟩, .retry _
  | _, .malloc _ _ | _, .mark _ | _, .sweep _ | _, .store _ _ => isTrue trivial

section Call

variable {cfg : Config} {s s' s₀ : SmallHeap} {l l' : Local} {place place₀ : Nat → Place (Fin 1)}
  {cache cache' : NodesCache} {mem m' : Mem} {n fuel : Nat} {res : Option Nat}

/-- The part of a run of the small allocator that one thread sees. -/
abbrev soloState (s : SmallHeap) (l : Local) (mem : Mem) : ConcurrentAlloc.State 1 :=
  ⟨s, fun _ => l, answer l.pc, mem⟩

/-- The bitmaps that a failed call zeroes have no bit of a whole slot. -/
theorem spares_of_noOther (ha : Attempt cfg n s₀ place₀ s l place)
    (hbits : Solo cfg s₀ ⟨.idle, cache⟩ place₀) (hother : l.pc.filling → NoOther cfg s₀.mem n) :
    ConcurrentAlloc.SparesMarks cfg (soloState s l mem) (.step 0) := by
  simp only [ConcurrentAlloc.SparesMarks]
  split
  · rename_i m i b hpc
    intro k hk _
    have hfilled := ha.filled
    simp only [Filled, hpc] at hfilled
    obtain ⟨⟨hnone, -⟩, hi, hplace, -⟩ := hfilled
    have hsize := ha.size
    rw [hpc] at hsize
    obtain rfl : m = n := Option.some.inj hsize
    have hb : b < cfg.blocksCount := ha.solo.owned.at 0 hpc
    have hhead : headerSize cfg s.mem b = i := (hplace ▸ ha.solo.owned.header b hb).1
    have hne : i ≠ m := by
      rintro rfl
      have hon := (ha.solo.owned.segreg i hi.lt).onList_iff.mpr ⟨hb, hplace⟩
      rw [hnone] at hon
      exact not_onList_none hon
    refine Bool.eq_false_of_not_eq_true fun hbit => ?_
    have hk' : k < 8 * bitmapBytesCount := hk.trans (slotCount_lt (one_le_of_lt_slotCount hk))
    have hold := ha.bits b k hk' hbit
    have hsame := (ha.used b (hbits.bits b k hb hk' hold).2.1).2
    have hwhole : k < slotCount (headerSize cfg s₀.mem b) := by
      rw [← hsame]
      exact hk
    have hno := hother (by rw [hpc]; trivial) b hb (by omega) k hwhole
    rw [hno] at hold
    cases hold
  · trivial

theorem answer_of_step (hs : LocalStep cfg s l s' l') : answer l.pc = [] := by
  cases hs with
  | _ hpc => simp [hpc, answer]

/-- What a call does to the marked slots of the last collection. -/
theorem call_markInv (h : Solo cfg s₀ ⟨.idle, cache⟩ place₀)
    (hm : MarkInv cfg (soloState s₀ ⟨.idle, cache⟩ mem) place₀) (hn : InRange n)
    (hother : res = none → NoOther cfg s₀.mem n)
    (hrun : allocateSmallObject cfg fuel s₀ cache n = some (s', cache', res)) :
    ∃ place, Solo cfg s' ⟨.idle, cache'⟩ place ∧
      MarkInv cfg (soloState s' ⟨.idle, cache'⟩ mem) place ∧
      ∀ r, res = some r → getBitByAddress cfg mem r = 0#8 := by
  have hturn : ∀ {s : SmallHeap} {l : Local} {place : Nat → Place (Fin 1)} {p : Pc},
      MarkInv cfg (soloState s l mem) place → l.pc.atRest → (∀ m, p = .enter m → InRange m) →
      (p.atRest ∨ ∃ m, p = .enter m) → answer p = [] →
      MarkInv cfg (soloState s (l.goto p) mem) place := by
    intro s l place p hm hrest hpc hnew hanswer
    have hmoved := hm.turn (t := 0) hrest hpc hnew
    refine ⟨?_, hmoved.origin, ?_, ?_⟩
    · have howned := hmoved.owned
      simp only [ConcurrentAlloc.goto, update_solo] at howned
      exact howned
    · have hkept := hmoved.kept
      simp only [ConcurrentAlloc.goto, update_solo] at hkept
      exact hkept
    · simp [hanswer]
  obtain ⟨place, ha, hq⟩ := attempt_run (Q := fun s l place =>
    (l.pc.filling → NoOther cfg s₀.mem n) → MarkInv cfg (soloState s l mem) place) h hn
    (fun _ => hturn (p := .enter n) hm trivial (by rintro m ⟨⟩; exact hn) (Or.inr ⟨n, rfl⟩) rfl)
    (fun s l s' l' place ha hq hs hfill => by
      have hfill' : l.pc.filling → NoOther cfg s₀.mem n := fun hf => hfill (hs.filling hf)
      have hstep := step_markInv (t := 0) (hq hfill') hs (spares_of_noOther ha h hfill')
      simp only [update_solo, answer_of_step hs, List.append_nil] at hstep
      exact hstep) hrun
  have hfinal := hq fun hf => hother (by cases res; rfl; exact hf.elim)
  refine ⟨place, ha.solo.idle trivial, ?_, ?_⟩
  · exact hturn (p := .idle) hfinal trivial nofun (Or.inl trivial) rfl
  · rintro r rfl
    exact hfinal.unmarked (r, n) (by simp [answer])

theorem setMem_markInv (h : MarkInv cfg (soloState s l mem) place) (hrest : l.pc.atRest)
    (same : SameHeaders cfg s.mem m') : MarkInv cfg (soloState (s.setMem m') l mem) place where
  owned := h.owned.setMem (fun _ => hrest) same
  origin := by
    intro b hb he
    obtain ⟨hsize, huse⟩ := h.origin b hb he
    exact ⟨(same.headerSize hb).trans hsize, huse⟩
  kept := fun b k hb hk hbit => (h.kept b k hb hk hbit).setMem same
  unmarked := h.unmarked

theorem init_markInv {m : Mem} (hm : ZeroedSmallHeap cfg m) :
    MarkInv cfg (soloState (initSmallAllocator cfg m) ⟨.idle, fun _ => none⟩
      (initSmallAllocator cfg m).mem) fun _ => .empty := by
  refine ⟨init_owned hm (fun _ => rfl) fun _ _ => rfl, fun b hb he => ?_, fun b k hb hk hbit => ?_,
    fun _ hx => nomatch hx⟩
  · have hempty := isBitmapEmpty_iff.mpr fun j hj => init_markBit hm hb hj
    rw [hempty] at he
    cases he
  · have hj : k < 8 * bitmapBytesCount := hk.trans (slotCount_lt (one_le_of_lt_slotCount hk))
    rw [init_markBit hm hb hj] at hbit
    cases hbit

end Call

/-- The marked slots of the last collection are protected. -/
def Tracked (cfg : Config) (g : Gc) (mem : Mem) : Prop :=
  ∃ place, Solo cfg g.heap.small ⟨.idle, g.nodesCache⟩ place ∧
    MarkInv cfg (soloState g.heap.small ⟨.idle, g.nodesCache⟩ mem) place

/-- No small slot returned since the last collection was marked by it. -/
def Unmarked (cfg : Config) (s : State) : Prop :=
  ∀ x, x ∈ s.answers → x.fresh = true → cfg.InSmall x.addr →
    getBitByAddress cfg s.sweptMem x.addr = 0#8

structure FailInv (cfg : Config) (s : State) : Prop where
  tracked : s.phase = .mutator ∨ (∃ n, s.phase = .swept n) → Tracked cfg s.gc s.sweptMem
  unmarked : Unmarked cfg s

section Runs

variable {cfg : Config} {roots : Roots cfg} {fuel n : Nat} {g g' : Gc} {mem : Mem}
  {s s' : State} {a : Action} {res : Option Nat}

theorem allocate_tracked (h : Tracked cfg g mem) (hin : NodesInside cfg g.heap.large.nodes)
    (hother : res = none → n ≤ maxObjectSize → NoOther cfg g.heap.mem n)
    (hrun : allocateNewObject cfg fuel g n = some (g', res)) :
    Tracked cfg g' mem ∧
      ∀ r, res = some r → cfg.InSmall r → getBitByAddress cfg mem r = 0#8 := by
  obtain ⟨place, hsolo, hmark⟩ := h
  rw [allocateNewObject] at hrun
  split at hrun
  · rename_i hn
    obtain ⟨⟨small, cache, r⟩, hsmall, he⟩ := Option.map_eq_some_iff.mp hrun
    cases he
    obtain ⟨place', hsolo', hmark', hclear⟩ :=
      call_markInv hsolo hmark hn (fun hr => hother hr hn.2) hsmall
    exact ⟨⟨place', hsolo', hmark'⟩, fun r hr _ => hclear r hr⟩
  · split at hrun
    · rename_i hn
      obtain ⟨⟨large, r⟩, hlarge, he⟩ := Option.map_eq_some_iff.mp hrun
      cases he
      refine ⟨⟨place, hsolo, hmark⟩, ?_⟩
      rintro r rfl hsmall
      have haddr := allocateLargeObject_addr hin (by omega) hlarge
      exact absurd haddr (cfg.not_inLarge_of_inSmall hsmall)
    · cases hrun
      exact ⟨⟨place, hsolo, hmark⟩, by simp⟩

theorem fails_of_none (hrun : allocateNewObject cfg fuel g n = some (g', none)) :
    Fails cfg fuel g n := by
  rw [Fails, hrun]
  rfl

/-- An attempt that succeeds, or one after which the lists are still protected. -/
theorem attempted_failInv {phase : Phase} {p : Gc × Option Nat} (h : FailInv cfg s)
    (htracked : p.2 ≠ none ∨ phase = .mutator → Tracked cfg p.1 s.sweptMem)
    (hphase : ∀ m, phase ≠ .swept m)
    (hclear : ∀ r, p.2 = some r → cfg.InSmall r → getBitByAddress cfg s.sweptMem r = 0#8) :
    FailInv cfg (s.attempted n phase p) := by
  rw [State.attempted]
  split
  · rename_i r hr
    refine ⟨fun _ => htracked (Or.inl (by simp [hr])), fun x hx hfresh hsmall => ?_⟩
    rcases List.mem_cons.mp hx with rfl | hx
    · exact hclear r hr hsmall
    · exact h.unmarked x hx hfresh hsmall
  · refine ⟨fun hp => htracked (Or.inr ?_), h.unmarked⟩
    rcases hp with hp | ⟨m, hp⟩
    · exact hp
    · exact absurd hp (hphase m)

theorem outcome_failInv (hi : Inv cfg s) (h : FailInv cfg s) (hok : SparesMarked cfg s a)
    (hs : Outcome cfg roots s a s') : FailInv cfg s' := by
  cases hs with
  | refused => exact h
  | @malloc n fuel p hphase _ _ hrun =>
    obtain ⟨g', res⟩ := p
    have hin := (hi.between (by simp [hphase])).inside
    have htracked := h.tracked (Or.inl hphase)
    cases res with
    | some r =>
      have hother : some r = none → n ≤ maxObjectSize → NoOther cfg s.gc.heap.mem n :=
        by simp
      obtain ⟨htracked', hclear⟩ := allocate_tracked htracked hin hother hrun
      exact attempted_failInv h (fun _ => htracked') (by simp) hclear
    | none => exact attempted_failInv h (by simp) (by simp) (by simp)
  | mark =>
    refine ⟨fun hp => ?_, h.unmarked⟩
    rcases hp with hp | ⟨m, hp⟩ <;> cases hp
  | @sweep n fuel g hphase _ hrun =>
    refine ⟨fun _ => ?_, fun x hx hfresh => ?_⟩
    · have hmarked := hi.marked hphase
      obtain ⟨large, -, rfl⟩ := Option.map_eq_some_iff.mp hrun
      refine ⟨sweptPlace cfg (Fin 1) s.gc.heap.mem, ?_, ?_⟩
      · simp only [State.afterSweep, hmarked.cache]
        exact swept_solo hmarked.small
      · simp only [State.afterSweep, hmarked.cache]
        refine swept_markInv s.gc.heap.small fun b hb he => ?_
        by_contra hrange
        have hempty := isBitmapEmpty_iff.mpr fun j hj =>
          Bool.eq_false_of_not_eq_true fun hbit => hrange (hmarked.small.bits b j hb hj hbit)
        exact absurd (hempty.symm.trans he) (by simp)
    · obtain ⟨y, -, rfl⟩ := List.mem_map.mp hx
      cases hfresh
  | @retry n fuel p hphase _ hrun =>
    obtain ⟨g', res⟩ := p
    have hin := (hi.between (by simp [hphase])).inside
    have hother : res = none → n ≤ maxObjectSize → NoOther cfg s.gc.heap.mem n := by
      rintro rfl hn
      simp only [SparesMarked, hphase] at hok
      exact hok hn (fails_of_none hrun)
    obtain ⟨htracked', hclear⟩ := allocate_tracked (h.tracked (Or.inr ⟨n, hphase⟩)) hin hother hrun
    exact attempted_failInv h (fun _ => htracked') (by simp) hclear
  | store hphase hw =>
    refine ⟨fun _ => ?_, h.unmarked⟩
    obtain ⟨place, hsolo, hmark⟩ := h.tracked (Or.inl hphase)
    exact ⟨place, hsolo.setMem trivial (store64_sameHeaders hw),
      setMem_markInv hmark trivial (store64_sameHeaders hw)⟩

theorem start_failInv (h : Start cfg s) : FailInv cfg s := by
  obtain ⟨m, hm, rfl⟩ := h
  exact ⟨fun _ => ⟨_, init_solo hm, init_markInv hm⟩, fun _ hx => nomatch hx⟩

/-- When no failing second attempt zeroes a bitmap with a marked whole slot, no small slot that is
returned before the next collection is one that the last collection has marked. -/
theorem failed_call_harmless (h : Reachable cfg roots (SparesMarked cfg) s) : Unmarked cfg s := by
  have hinv : FailInv cfg s := h.invariant_of (fun _ hr => reachable_inv hr)
    (fun _ hi => start_failInv hi) fun _ _ _ hi hf hok hs =>
      outcome_failInv hi hf hok (step_outcome hs)
  exact hinv.unmarked

end Runs

/-- One root word. -/
def oneRoot : Roots oneBlock where
  segments := [(104, 112)]
  bounds := by decide
  apart := by decide
  apartLarge := by decide

def start : State := initial oneBlock fun _ => 0#8

theorem start_start : Start oneBlock start := ⟨_, fun _ _ _ => rfl, rfl⟩

/-- The object at 4176 is the root's; no block is left for size 16, and the block of size 8 loses
its marks. The next request for 8 bytes returns 4176 again. -/
theorem marked_slot_returned_again :
    ¬ ∀ (cfg : Config) (roots : Roots cfg) (s : State),
      Reachable cfg roots Transition.anyStep s → Unmarked cfg s := by
  intro h
  obtain ⟨s, hr, hanswer, hbit⟩ := (Transition.Reachable.init start_start :
      Reachable oneBlock oneRoot Transition.anyStep start).exists_of_run
    [.malloc 8 8196, .store 104 4176, .malloc 16 8196, .mark 8196, .sweep 8196, .retry 8196,
      .malloc 8 8196]
    (fun s => s.answers.head? = some ⟨4176, 8, true, true⟩ ∧
      getBitByAddress oneBlock s.sweptMem 4176 ≠ 0#8) (by decide +kernel)
  have hunmarked := h oneBlock oneRoot s hr ⟨4176, 8, true, true⟩ (List.mem_of_mem_head? hanswer)
  exact hbit (hunmarked rfl (by decide))

/-- After a collection that finds the object, a request for 8 bytes gets the next slot. -/
theorem failed_call_harmless_next_slot :
    ∃ s : State, s.answers.head? = some ⟨4184, 8, true, true⟩ ∧
      getBitByAddress oneBlock s.sweptMem 4176 ≠ 0#8 ∧
      getBitByAddress oneBlock s.sweptMem 4184 = 0#8 := by
  obtain ⟨s, hr, hanswer, hbit⟩ := (Transition.Reachable.init start_start :
      Reachable oneBlock oneRoot (SparesMarked oneBlock) start).exists_of_run
    [.malloc 8 8196, .store 104 4176, .malloc 4096 8196, .malloc 4096 8196, .mark 8196,
      .sweep 8196, .retry 8196, .malloc 8 8196]
    (fun s => s.answers.head? = some ⟨4184, 8, true, true⟩ ∧
      getBitByAddress oneBlock s.sweptMem 4176 ≠ 0#8) (by decide +kernel)
  have hunmarked := failed_call_harmless hr ⟨4184, 8, true, true⟩ (List.mem_of_mem_head? hanswer)
  exact ⟨s, hanswer, hbit, hunmarked rfl (by decide)⟩

end GarbageCollector.FailedAllocation
