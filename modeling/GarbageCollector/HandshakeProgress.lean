import GarbageCollector.BoundedRuns
import GarbageCollector.StopTheWorld
import Mathlib.Tactic

/-!
# Every stopped thread is restarted

Progress of the stop/start handshake. When the service thread waits for the stragglers of the
last collection before it lowers the flag, each collection that has begun ends after a bounded
number of steps with every thread back in its own code. No return of `pthread_cond_wait` without
a broadcast is needed for that.
-/

namespace GarbageCollector.StopTheWorld

open Sync Transition

variable {n : Nat}

/-- `stop_the_world` takes the lock of the flag only when no thread is still between the barrier
of the last collection and its test of the flag. -/
def AfterStragglers (s : State n) (a : Action n) : Prop :=
  a = .service → s.service = .counted → ∀ i, s.thread i ≠ .passed

/-- No collection begins. -/
def SameRound (s : State n) (a : Action n) : Prop :=
  AfterStragglers s a ∧ (a = .service → s.service ≠ .outside)

/-- No collection begins and no thread wakes up by itself. -/
def NoLuck (s : State n) (a : Action n) : Prop :=
  SameRound s a ∧ ∀ i, a ≠ .wakeUp i

instance (s : State n) (a : Action n) : Decidable (AfterStragglers s a) :=
  inferInstanceAs (Decidable (_ → _ → ∀ _, _))

instance (s : State n) (a : Action n) : Decidable (SameRound s a) :=
  inferInstanceAs (Decidable (_ ∧ (_ → _)))

instance (s : State n) (a : Action n) : Decidable (NoLuck s a) :=
  inferInstanceAs (Decidable (_ ∧ ∀ _, _))

/-- Every registered thread runs its own code and no signal is on its way. -/
structure Restarted (s : State n) : Prop where
  service : s.service = .outside
  users : ∀ i, s.thread i = .user ∧ s.pending i = false
  lock : s.isWorldStartedLock = none

def HandlerPc.stepsLeft : HandlerPc → Nat
  | .user => 0
  | .leaving => 1
  | .woken => 2
  | .waiting => 3
  | .holding => 4
  | .passed => 5
  | .atBarrier => 6
  | .entered => 7

/-- A signal on its way stands for a whole visit to the handler. -/
def signalCost (pending : Bool) : Nat := if pending = true then 8 else 0

/-- The service thread is charged for the signals that it has not sent yet. -/
def ServicePc.stepsLeft (n : Nat) : ServicePc → Nat
  | .outside => 0
  | .broadcasted => 1
  | .broadcasting => 2
  | .started => 3
  | .starting => 4
  | .stopped => 5
  | .barrierPassed => 6
  | .atBarrier => 7
  | .signalling k => 8 + 9 * (n - k)
  | .cleared => 9 + 9 * n
  | .resetting => 10 + 9 * n
  | .counted => 11 + 9 * n

def stepsLeft (s : State n) : Nat :=
  ∑ i, (s.thread i).stepsLeft + ∑ i, signalCost (s.pending i) + s.service.stepsLeft n

theorem HandlerPc.stepsLeft_le (pc : HandlerPc) : pc.stepsLeft ≤ 7 := by
  cases pc <;> decide

theorem signalCost_le (b : Bool) : signalCost b ≤ 8 := by
  cases b <;> decide

theorem ServicePc.stepsLeft_le (n : Nat) (pc : ServicePc) : pc.stepsLeft n ≤ 11 + 9 * n := by
  cases pc <;> simp only [ServicePc.stepsLeft] <;> omega

theorem stepsLeft_le (s : State n) : stepsLeft s ≤ 24 * n + 11 := by
  have hthread : ∑ i, (s.thread i).stepsLeft ≤ ∑ _i : Fin n, 7 :=
    Finset.sum_le_sum fun i _ => (s.thread i).stepsLeft_le
  have hsignal : ∑ i, signalCost (s.pending i) ≤ ∑ _i : Fin n, 8 :=
    Finset.sum_le_sum fun i _ => signalCost_le (s.pending i)
  have hservice := s.service.stepsLeft_le n
  rw [Finset.sum_const, Finset.card_univ, Fintype.card_fin, smul_eq_mul] at hthread hsignal
  rw [stepsLeft]
  omega

section Steps

variable {s s' : State n} {i : Fin n}

theorem stepsLeft_thread {pc : HandlerPc} {t : State n}
    (hpc : pc.stepsLeft < (s.thread i).stepsLeft) (ht : t.thread = Function.update s.thread i pc)
    (hpending : t.pending = s.pending) (hservice : t.service = s.service) :
    stepsLeft t < stepsLeft s := by
  have hsum := weights_update HandlerPc.stepsLeft s.thread i pc
  simp only [stepsLeft, ht, hpending, hservice]
  omega

theorem stepsLeft_service {t : State n} (ht : t.thread = s.thread)
    (hpending : t.pending = s.pending)
    (hservice : t.service.stepsLeft n < s.service.stepsLeft n) : stepsLeft t < stepsLeft s := by
  simp only [stepsLeft, ht, hpending]
  omega

theorem stepsLeft_deliver (hu : s.thread i = .user) (hp : s.pending i = true) {t : State n}
    (ht : t.thread = Function.update s.thread i .entered)
    (hpending : t.pending = Function.update s.pending i false) (hservice : t.service = s.service) :
    stepsLeft t < stepsLeft s := by
  have hsum := weights_update HandlerPc.stepsLeft s.thread i .entered
  have hsignal := weights_update signalCost s.pending i false
  have huser : (s.thread i).stepsLeft = 0 := by rw [hu]; rfl
  have hentered : HandlerPc.entered.stepsLeft = 7 := rfl
  have hsent : signalCost (s.pending i) = 8 := by rw [hp]; rfl
  have hnone : signalCost false = 0 := rfl
  simp only [stepsLeft, ht, hpending, hservice]
  omega

theorem stepsLeft_signal {k : Nat} (hpc : s.service = .signalling k) (hk : k < n) {t : State n}
    (ht : t.thread = s.thread) (hpending : t.pending = Function.update s.pending ⟨k, hk⟩ true)
    (hservice : t.service = .signalling (k + 1)) : stepsLeft t < stepsLeft s := by
  have hsignal := weights_update signalCost s.pending ⟨k, hk⟩ true
  have hcost : signalCost true = 8 := rfl
  simp only [stepsLeft, ht, hpending, hservice, hpc, ServicePc.stepsLeft]
  omega

/-- Everybody has arrived, so nobody is set back. -/
theorem stepsLeft_opened (hall : ∀ j, s.thread j = .atBarrier ∨ s.thread j = .entered)
    (hservice : ServicePc.barrierPassed.stepsLeft n < s.service.stepsLeft n)
    (reached : Fin n → Nat) : stepsLeft { opened s with reached := reached } < stepsLeft s := by
  have hsum : ∑ j : Fin n, HandlerPc.passed.stepsLeft ≤ ∑ j, (s.thread j).stepsLeft :=
    Finset.sum_le_sum fun j _ => by rcases hall j with hj | hj <;> simp [hj, HandlerPc.stepsLeft]
  simp only [stepsLeft, opened]
  omega

end Steps

structure Smooth (s : State n) : Prop where
  wf : Wf s
  handshake : HandshakeInv s
  /-- While the flag is being lowered nobody is on the way to test it. -/
  tested : s.service = .resetting → ∀ i, s.thread i ≠ .passed
  /-- The barrier opens for the last to arrive. -/
  missing : s.service = .atBarrier → ∃ i, s.thread i ≠ .atBarrier

theorem initial_smooth (n : Nat) : Smooth (initial n) :=
  ⟨initial_wf n, initial_handshake n, by simp [initial], by simp [initial]⟩

section Kept

variable {s s' : State n} {a : Action n}

/-- Arriving opens the barrier, or some thread is still missing. -/
theorem Wf.arrives (h : Wf s) {i : Fin n} (hu : s.thread i = .entered) :
    (s.service = .atBarrier ∧ (∀ j, s.thread j = .atBarrier ∨ s.thread j = .entered) ∧
      barrierWait s (some i) = opened s) ∨
    (barrierWait s (some i) = parked s (some i) ∧
      (s.service = .atBarrier → ∃ j, j ≠ i ∧ s.thread j ≠ .atBarrier)) := by
  have hr : s.service.sent n ≠ none := by
    intro hn
    have hp := h.phase i
    simp [hn, Phase, hu] at hp
  by_cases hall : ∀ q, q = some i ∨ q ∈ s.barrier.waiting
  · refine Or.inl ⟨h.serviceWaits.mp ((hall none).resolve_left (by simp)), fun j => ?_,
      h.barrierWait_full hr hall⟩
    by_cases hj : j = i
    · exact Or.inr (hj ▸ hu)
    · exact Or.inl ((h.threadWaits j).mp ((hall (some j)).resolve_left (by simpa using hj)))
  · refine Or.inr ⟨((h.barrierWait_cases hr (some i)).resolve_left fun hopen => hall hopen.1),
      fun hservice => ?_⟩
    by_contra hnone
    simp only [not_exists, not_and, not_not] at hnone
    refine hall fun q => ?_
    cases q with
    | none => exact Or.inr (h.serviceWaits.mpr hservice)
    | some j =>
      by_cases hj : j = i
      · exact Or.inl (by rw [hj])
      · exact Or.inr ((h.threadWaits j).mpr (hnone j hj))

/-- The same for the service thread. -/
theorem Wf.service_arrives (h : Wf s) {k : Nat} (hpc : s.service = .signalling k) :
    ((∀ j, s.thread j = .atBarrier) ∧ barrierWait s none = opened s) ∨
    (barrierWait s none = parked s none ∧ ∃ j, s.thread j ≠ .atBarrier) := by
  have hr : s.service.sent n ≠ none := by simp [hpc, ServicePc.sent]
  by_cases hall : ∀ j, s.thread j = .atBarrier
  · refine Or.inl ⟨hall, h.barrierWait_full hr fun q => ?_⟩
    cases q with
    | none => exact Or.inl rfl
    | some j => exact Or.inr ((h.threadWaits j).mpr (hall j))
  · refine Or.inr ⟨(h.barrierWait_cases hr none).resolve_left fun hopen => hall fun j => ?_,
      not_forall.mp hall⟩
    exact (h.threadWaits j).mp ((hopen.1 (some j)).resolve_left (by simp))

theorem Moves.to_handler {i : Fin n} {pc : HandlerPc} (hm : Moves s i a pc) :
    pc ≠ .passed ∧ pc ≠ .atBarrier ∧ s.thread i ≠ .atBarrier := by
  cases hm <;> simp_all

theorem Smooth.stragglers (h : Smooth s) : NoStragglerAtReset s a :=
  fun _ hpc => h.tested hpc

theorem Smooth.tested_kept (h : Smooth s) (hok : AfterStragglers s a)
    (hs : step s a = some s') : s'.service = .resetting → ∀ i, s'.thread i ≠ .passed := by
  by_cases ha : a = .service
  · subst ha
    simp only [step, serviceStep] at hs
    intro hpc'
    cases hpc : s.service <;> simp only [hpc] at hs
    case counted =>
      split at hs <;> cases hs
      exact hok rfl hpc
    case signalling k =>
      split at hs <;> cases hs
      · cases hpc'
      · rcases h.wf.service_arrives hpc with ⟨-, hb⟩ | ⟨hb, -⟩ <;> rw [hb] at hpc' <;> cases hpc'
    case stopped => split at hs <;> cases hs; cases hpc'
    all_goals cases hs
    all_goals cases hpc'
  · rcases thread_step_cases hs ha with
      ⟨i, rfl, hu, rfl⟩ | ⟨i, pc, hm, hservice, -, -, -, hthread⟩
    · intro hpc' j
      rcases h.wf.arrives hu with ⟨-, -, hb⟩ | ⟨hb, -⟩
      · rw [hb] at hpc'
        cases hpc'
      · have hpc : s.service = .resetting := by simpa [hb, parked] using hpc'
        have hp := h.wf.phase i
        rw [hpc, hu] at hp
        exact absurd hp.onItsWay.2.2 (Nat.not_lt_zero _)
    · intro hpc' j
      rw [hservice] at hpc'
      by_cases hj : j = i
      · rw [hthread, hj, Function.update_self]
        exact hm.to_handler.1
      · rw [hthread, Function.update_of_ne hj]
        exact h.tested hpc' j

theorem Smooth.missing_kept (h : Smooth s) (hs : step s a = some s') :
    s'.service = .atBarrier → ∃ i, s'.thread i ≠ .atBarrier := by
  by_cases ha : a = .service
  · subst ha
    simp only [step, serviceStep] at hs
    intro hpc'
    cases hpc : s.service <;> simp only [hpc] at hs
    case counted | stopped => split at hs <;> cases hs; cases hpc'
    case signalling k =>
      split at hs <;> cases hs
      · cases hpc'
      · rcases h.wf.service_arrives hpc with ⟨-, hb⟩ | ⟨hb, j, hj⟩
        · rw [hb] at hpc'
          cases hpc'
        · exact ⟨j, by simpa [hb, parked] using hj⟩
    all_goals cases hs
    all_goals cases hpc'
  · rcases thread_step_cases hs ha with
      ⟨i, rfl, hu, rfl⟩ | ⟨i, pc, hm, hservice, -, -, -, hthread⟩
    · intro hpc'
      rcases h.wf.arrives hu with ⟨-, -, hb⟩ | ⟨hb, hmissing⟩
      · rw [hb] at hpc'
        cases hpc'
      · have hpc : s.service = .atBarrier := by simpa [hb, parked] using hpc'
        obtain ⟨j, hji, hj⟩ := hmissing hpc
        exact ⟨j, by simpa [hb, parked, Ne.symm hji] using hj⟩
    · intro hpc'
      obtain ⟨j, hj⟩ := h.missing (hservice ▸ hpc')
      refine ⟨j, ?_⟩
      by_cases hji : j = i
      · rw [hthread, hji, Function.update_self]
        exact hm.to_handler.2.1
      · rwa [hthread, Function.update_of_ne hji]

theorem Smooth.stepped (h : Smooth s) (hok : AfterStragglers s a) (hs : step s a = some s') :
    Smooth s' where
  wf := step_wf h.wf hs
  handshake := step_handshake h.wf h.handshake h.stragglers hs
  tested := h.tested_kept hok hs
  missing := h.missing_kept hs

end Kept

section Lower

variable {s s' : State n}

theorem Smooth.arrive_lower (h : Smooth s) {i : Fin n} (hu : s.thread i = .entered) :
    stepsLeft { barrierWait s (some i) with reached := Function.update s.reached i s.epoch } <
      stepsLeft s := by
  rcases h.wf.arrives hu with ⟨hpc, hall, hb⟩ | ⟨hb, -⟩
  · rw [hb]
    exact stepsLeft_opened hall (by simp [hpc, ServicePc.stepsLeft]) _
  · rw [hb]
    have hlt : HandlerPc.stepsLeft .atBarrier < (s.thread i).stepsLeft := by
      simp [hu, HandlerPc.stepsLeft]
    refine stepsLeft_thread hlt ?_ rfl (by simp [parked])
    funext j
    by_cases hj : i = j
    · simp [parked, hj]
    · simp [parked, hj, Function.update_of_ne (Ne.symm hj)]

theorem serviceStep_lower (h : Smooth s) (hout : s.service ≠ .outside)
    (hs : serviceStep s = some s') : stepsLeft s' < stepsLeft s := by
  simp only [serviceStep] at hs
  cases hpc : s.service <;> simp only [hpc] at hs
  case outside => exact absurd hpc hout
  case counted | stopped =>
    split at hs <;> cases hs
    exact stepsLeft_service rfl rfl (by simp [hpc, ServicePc.stepsLeft])
  case signalling k =>
    split at hs <;> cases hs
    · rename_i hk
      exact stepsLeft_signal hpc hk rfl rfl rfl
    · rcases h.wf.service_arrives hpc with ⟨hall, hb⟩ | ⟨hb, -⟩
      · rw [hb]
        refine stepsLeft_opened (fun j => Or.inl (hall j)) ?_ s.reached
        simp only [hpc, ServicePc.stepsLeft]
        omega
      · rw [hb]
        refine stepsLeft_service ?_ rfl ?_
        · funext j
          simp [parked]
        · simp only [hpc, parked, if_true, ServicePc.stepsLeft]
          omega
  case broadcasting =>
    cases hs
    have hsum : ∑ j, (if s.thread j = .waiting then HandlerPc.woken else s.thread j).stepsLeft ≤
        ∑ j, (s.thread j).stepsLeft :=
      Finset.sum_le_sum fun j _ => by
        by_cases hj : s.thread j = .waiting <;> simp [hj, HandlerPc.stepsLeft]
    simp only [stepsLeft, hpc, ServicePc.stepsLeft]
    omega
  all_goals cases hs
  all_goals refine stepsLeft_service rfl rfl ?_
  all_goals simp [hpc, ServicePc.stepsLeft]

theorem Smooth.lower {a : Action n} (h : Smooth s) (hok : SameRound s a)
    (hs : step s a = some s') : stepsLeft s' < stepsLeft s := by
  cases a with
  | service => exact serviceStep_lower h (hok.2 rfl) hs
  | deliver i =>
    simp only [step, Option.ite_none_right_eq_some, Option.some.injEq] at hs
    obtain ⟨⟨hu, hp⟩, rfl⟩ := hs
    exact stepsLeft_deliver hu hp rfl rfl rfl
  | arrive i =>
    simp only [step, Option.ite_none_right_eq_some, Option.some.injEq] at hs
    obtain ⟨hu, rfl⟩ := hs
    exact h.arrive_lower hu
  | test i =>
    simp only [step, Option.ite_none_right_eq_some] at hs
    obtain ⟨hu, hs⟩ := hs
    split at hs <;> cases hs <;>
      exact stepsLeft_thread (i := i) (by simp [hu, HandlerPc.stepsLeft]) rfl rfl rfl
  | lock i | relock i =>
    simp only [step, Option.ite_none_right_eq_some, Option.some.injEq] at hs
    obtain ⟨⟨hu, -⟩, rfl⟩ := hs
    exact stepsLeft_thread (i := i) (by simp [hu, HandlerPc.stepsLeft]) rfl rfl rfl
  | wakeUp i | unlock i =>
    simp only [step, Option.ite_none_right_eq_some, Option.some.injEq] at hs
    obtain ⟨hu, rfl⟩ := hs
    exact stepsLeft_thread (i := i) (by simp [hu, HandlerPc.stepsLeft]) rfl rfl rfl

end Lower

theorem descends : Descends step SameRound (Smooth (n := n)) stepsLeft where
  keep := fun _ _ _ h hok hs => h.stepped hok.1 hs
  lower := fun _ _ _ h hok hs => h.lower hok hs

section Progress

variable {s : State n}

/-- A thread can only be held up by the lock, by the barrier, by the missing broadcast or, in its
own code, by the missing signal. -/
theorem Final.thread (h : Final step NoLuck s) (i : Fin n) :
    (s.thread i = .user ∧ s.pending i = false) ∨ s.thread i = .atBarrier ∨
      s.thread i = .waiting ∨
      ((s.thread i = .passed ∨ s.thread i = .woken) ∧ s.isWorldStartedLock ≠ none) := by
  have hfree : ∀ a, a ≠ .service → (∀ j, a ≠ .wakeUp j) → step s a = none := fun a ha hw =>
    h a ⟨⟨fun he => absurd he ha, fun he => absurd he ha⟩, hw⟩
  have hdeliver := hfree (.deliver i) (by simp) (by simp)
  have harrive := hfree (.arrive i) (by simp) (by simp)
  have hlock := hfree (.lock i) (by simp) (by simp)
  have htest := hfree (.test i) (by simp) (by simp)
  have hrelock := hfree (.relock i) (by simp) (by simp)
  have hunlock := hfree (.unlock i) (by simp) (by simp)
  simp only [step] at hdeliver harrive hlock htest hrelock hunlock
  cases hpc : s.thread i
  case holding =>
    by_cases hflag : s.isWorldStarted = true <;> simp [hpc, hflag] at htest
  all_goals simp_all

theorem Smooth.lock_free (h : Smooth s) (hfinal : Final step NoLuck s)
    (hservice : ¬ s.service.holdsLock) : s.isWorldStartedLock = none := by
  refine h.wf.lock_free hservice fun i hi => ?_
  rcases Final.thread hfinal i with ⟨hpc, -⟩ | hpc | hpc | ⟨hpc | hpc, -⟩ <;>
    simp [hpc, HandlerPc.holdsLock] at hi

/-- The service thread is only ever held up at the barrier, or is done. -/
theorem Smooth.service_waits (h : Smooth s) (hfinal : Final step NoLuck s) :
    s.service = .outside ∨ s.service = .atBarrier := by
  have hnone : AfterStragglers s .service → s.service ≠ .outside → serviceStep s = none :=
    fun hok hout => hfinal .service ⟨⟨hok, fun _ => hout⟩, by simp⟩
  cases hpc : s.service
  case outside => exact Or.inl rfl
  case atBarrier => exact Or.inr rfl
  case counted =>
    have hlock := h.lock_free hfinal (by simp [hpc, ServicePc.holdsLock])
    have hpassed : AfterStragglers s .service := fun _ _ i hi => by
      rcases Final.thread hfinal i with ⟨hpc, -⟩ | hpc | hpc | ⟨-, hne⟩
      · simp [hpc] at hi
      · simp [hpc] at hi
      · simp [hpc] at hi
      · exact hne hlock
    have hstep := hnone hpassed (by simp [hpc])
    simp [serviceStep, hpc, hlock] at hstep
  case stopped =>
    have hlock := h.lock_free hfinal (by simp [hpc, ServicePc.holdsLock])
    have hstep := hnone (by simp [AfterStragglers, hpc]) (by simp [hpc])
    simp [serviceStep, hpc, hlock] at hstep
  case signalling k =>
    have hstep := hnone (by simp [AfterStragglers, hpc]) (by simp [hpc])
    by_cases hk : k < n <;> simp [serviceStep, hpc, hk] at hstep
  all_goals
    have hstep := hnone (by simp [AfterStragglers, hpc]) (by simp [hpc])
    simp [serviceStep, hpc] at hstep

/-- Nobody is held up on the way to the barrier, so it opens. -/
theorem Smooth.not_waiting (h : Smooth s) (hfinal : Final step NoLuck s) :
    s.service ≠ .atBarrier := by
  intro hpc
  have hgathered := h.handshake.gathered (by rw [hpc]; trivial)
  have hlock := h.lock_free hfinal (by simp [hpc, ServicePc.holdsLock])
  obtain ⟨i, hi⟩ := h.missing hpc
  have hphase := h.wf.phase i
  have hsent : s.service.sent n = some n := by rw [hpc]; rfl
  rw [hsent] at hphase
  rcases Final.thread hfinal i with ⟨hu, hp⟩ | hu | hu | ⟨-, hne⟩
  · rw [hu, hp] at hphase
    rcases hphase with ⟨-, hbad, -⟩ | ⟨-, -, -, hiff⟩
    · cases hbad
    · simpa using hiff.mp i.isLt
  · exact hi hu
  · exact hgathered i (Or.inr (Or.inr hu))
  · exact hne hlock

theorem Smooth.restarted (h : Smooth s) (hfinal : Final step NoLuck s) : Restarted s := by
  have hservice : s.service = .outside :=
    (h.service_waits hfinal).resolve_right (h.not_waiting hfinal)
  have hlock := h.lock_free hfinal (by simp [hservice, ServicePc.holdsLock])
  refine ⟨hservice, fun i => ?_, hlock⟩
  have hphase := h.wf.phase i
  rcases Final.thread hfinal i with hu | hu | hu | ⟨-, hne⟩
  · exact hu
  · simp [hservice, ServicePc.sent, Phase, hu] at hphase
  · exact absurd hu (h.handshake.awake (by rw [hservice]; trivial) i)
  · exact absurd hlock hne

end Progress

theorem reachable_smooth {s : State n} (h : Reachable n AfterStragglers s) : Smooth s :=
  h.invariant (fun _ hi => hi ▸ initial_smooth n) fun _ _ _ hi hok hs => hi.stepped hok hs

/-- A collection that has begun ends within a bounded number of steps, with every thread back in
its own code: no run that begins no other is longer, and one that can only go on when a thread
wakes up by itself is over. -/
theorem world_restarts {s : State n} (h : Reachable n AfterStragglers s) :
    (∀ as s', run step SameRound s as = some s' →
      as.length ≤ 24 * n + 11 ∧ (Final step NoLuck s' → Restarted s')) ∧
    ∃ as s', run step NoLuck s as = some s' ∧ Restarted s' := by
  obtain ⟨hall, hsome⟩ := descends.rests (fun _ _ hsure => hsure.1)
    (fun _ hi hfinal => hi.restarted hfinal) (reachable_smooth h)
  refine ⟨fun as s' hr => ?_, hsome⟩
  obtain ⟨hle, hrest⟩ := hall as s' hr
  exact ⟨hle.trans (stepsLeft_le s), hrest⟩

/-- Two threads in the second collection, one of which left the first one late. -/
theorem world_restarts_second_round :
    ∃ (s : State 2) (as : List (Action 2)) (s' : State 2), s.service = .atBarrier ∧ s.epoch = 2 ∧
      run step NoLuck s as = some s' ∧ Restarted s' := by
  obtain ⟨s, hr, hservice, hepoch⟩ := reachable_of_run (initial 2)
    (firstCollection 0 1 ++ [.lock 0, .test 0, .unlock 0] ++ secondStop 1)
    (fun s => s.service = .atBarrier ∧ s.epoch = 2) step AfterStragglers (by decide)
  obtain ⟨as, s', hrun, hrest⟩ := (world_restarts hr).2
  exact ⟨s, as, s', hservice, hepoch, hrun, hrest⟩

end GarbageCollector.StopTheWorld
