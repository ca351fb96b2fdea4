import GarbageCollector.Sync
import GarbageCollector.Transition
import Mathlib.Data.Fintype.Option
import Mathlib.Data.Fin.Basic

/-!
# The stop/start handshake

`stop_the_world`, `start_the_world` and `handler` for a fixed registry of `n` threads and
any number of collections one after another. A step is one locked operation, one signal
or one arrival at the barrier. The stop signal is blocked while `handler` runs, so a signal
sent meanwhile stays pending. `pthread_cond_wait` may return without a broadcast, as
POSIX allows.
-/

namespace GarbageCollector.StopTheWorld

open Sync

/-- Where a registered thread is: in its own code or at a line of `handler`. -/
inductive HandlerPc where
  | user
  | entered
  | atBarrier
  | passed
  | holding
  | waiting
  | woken
  | leaving
  deriving DecidableEq, Repr

/-- Where the service thread is. `stopped` lies between the return of `stop_the_world`
and the lock taken in `start_the_world`: marking and sweeping happen there. -/
inductive ServicePc where
  | outside
  | counted
  | resetting
  | cleared
  | signalling (sent : Nat)
  | atBarrier
  | barrierPassed
  | stopped
  | starting
  | started
  | broadcasting
  | broadcasted
  deriving DecidableEq, Repr

/-- The two kinds of party: `none` is the service thread, `some i` a registered thread. -/
abbrev Party (n : Nat) := Option (Fin n)

structure State (n : Nat) where
  service : ServicePc
  thread : Fin n → HandlerPc
  pending : Fin n → Bool
  isWorldStarted : Bool
  isWorldStartedLock : Mutex (Party n)
  barrier : Barrier (Party n)
  /-- Number of barriers initialised so far: the collection in progress. -/
  epoch : Nat
  /-- The last collection whose barrier the thread arrived at. -/
  reached : Fin n → Nat

def initial (n : Nat) : State n where
  service := .outside
  thread := fun _ => .user
  pending := fun _ => false
  isWorldStarted := false
  isWorldStartedLock := none
  barrier := ⟨0, ∅⟩
  epoch := 0
  reached := fun _ => 0

inductive Action (n : Nat) where
  | service
  | deliver (i : Fin n)
  | arrive (i : Fin n)
  | lock (i : Fin n)
  | test (i : Fin n)
  /-- `pthread_cond_wait` returns without a broadcast. -/
  | wakeUp (i : Fin n)
  | relock (i : Fin n)
  | unlock (i : Fin n)
  deriving DecidableEq, Repr

variable {n : Nat}

/-- `pthread_barrier_wait(&barrier)` called by `p`. -/
def barrierWait (s : State n) (p : Party n) : State n :=
  let opened := (s.barrier.arrive p).2
  { s with
    barrier := (s.barrier.arrive p).1
    thread := fun i => if some i ∈ opened then .passed
      else if p = some i then .atBarrier else s.thread i
    service := if none ∈ opened then .barrierPassed
      else if p = none then .atBarrier else s.service }

def setThread (s : State n) (i : Fin n) (pc : HandlerPc) : State n :=
  { s with thread := Function.update s.thread i pc }

/-- One step of `stop_the_world` followed by `start_the_world`. -/
def serviceStep (s : State n) : Option (State n) :=
  match s.service with
  | .outside =>
    -- wrlock(thread_creation_lock), threads_stopped = n, barrier for n + 1 parties
    some { s with service := .counted, barrier := ⟨n + 1, ∅⟩, epoch := s.epoch + 1 }
  | .counted =>
    if s.isWorldStartedLock = none then
      some { s with service := .resetting, isWorldStartedLock := some none }
    else none
  | .resetting => some { s with service := .cleared, isWorldStarted := false }
  | .cleared => some { s with service := .signalling 0, isWorldStartedLock := none }
  | .signalling k =>
    if h : k < n then
      some { s with
        service := .signalling (k + 1)
        pending := Function.update s.pending ⟨k, h⟩ true }
    else some (barrierWait s none)
  | .atBarrier => none
  | .barrierPassed => some { s with service := .stopped }
  | .stopped =>
    if s.isWorldStartedLock = none then
      some { s with service := .starting, isWorldStartedLock := some none }
    else none
  | .starting => some { s with service := .started, isWorldStarted := true }
  | .started => some { s with service := .broadcasting, isWorldStartedLock := none }
  | .broadcasting =>
    some { s with
      service := .broadcasted
      thread := fun i => if s.thread i = .waiting then .woken else s.thread i }
  | .broadcasted => some { s with service := .outside }

def step (s : State n) : Action n → Option (State n)
  | .service => serviceStep s
  | .deliver i =>
    if s.thread i = .user ∧ s.pending i = true then
      some { setThread s i .entered with pending := Function.update s.pending i false }
    else none
  | .arrive i =>
    if s.thread i = .entered then
      some { barrierWait s (some i) with reached := Function.update s.reached i s.epoch }
    else none
  | .lock i =>
    if s.thread i = .passed ∧ s.isWorldStartedLock = none then
      some { setThread s i .holding with isWorldStartedLock := some (some i) }
    else none
  | .test i =>
    if s.thread i = .holding then
      if s.isWorldStarted = true then some (setThread s i .leaving)
      else some { setThread s i .waiting with isWorldStartedLock := none }
    else none
  | .wakeUp i =>
    if s.thread i = .waiting then some (setThread s i .woken) else none
  | .relock i =>
    if s.thread i = .woken ∧ s.isWorldStartedLock = none then
      some { setThread s i .leaving with isWorldStartedLock := some (some i) }
    else none
  | .unlock i =>
    if s.thread i = .leaving then
      some { setThread s i .user with isWorldStartedLock := none }
    else none

/-- Runs of the handshake whose steps all satisfy `ok`. -/
abbrev Reachable (n : Nat) (ok : State n → Action n → Prop) : State n → Prop :=
  Transition.Reachable (· = initial n) step ok

def inHandler (pc : HandlerPc) : Prop := pc ≠ .user

/-- The service thread waits at the barrier of its collection while a registered thread
that has not reached this barrier waits on `start_world_cond`. -/
def Stuck (s : State n) : Prop :=
  s.service = .atBarrier ∧ ∃ i, s.reached i < s.epoch ∧ s.thread i = .waiting

/-- From the return of `stop_the_world` until `start_the_world` sets the flag. -/
def worldStopped (s : State n) : Prop := s.service = .stopped ∨ s.service = .starting

/-- Every registered thread is inside the handler that reached this collection's barrier. -/
def AllStopped (s : State n) : Prop :=
  ∀ i, inHandler (s.thread i) ∧ s.reached i = s.epoch

def HandlerPc.holdsLock (pc : HandlerPc) : Prop := pc = .holding ∨ pc = .leaving

def ServicePc.holdsLock (pc : ServicePc) : Prop :=
  pc = .resetting ∨ pc = .cleared ∨ pc = .starting ∨ pc = .started

/-- Signals sent in the round whose barrier is not open yet, if there is such a round. -/
def ServicePc.sent (n : Nat) : ServicePc → Option Nat
  | .counted | .resetting | .cleared => some 0
  | .signalling k => some k
  | .atBarrier => some n
  | _ => none

/-- Where thread `i` may be when `sent` signals of an open round are out: at the barrier,
or on its way there exactly if it was signalled. Outside a round every signal is consumed
and every barrier passed. -/
def Phase (sent : Option Nat) (epoch reached : Nat) (pc : HandlerPc) (pending : Bool)
    (i : Nat) : Prop :=
  match sent with
  | some k =>
    (reached = epoch ∧ pc = .atBarrier ∧ pending = false ∧ i < k) ∨
    (reached < epoch ∧ pc ≠ .atBarrier ∧ (pc = .entered → pending = false) ∧
      (i < k ↔ pc = .entered ∨ pending = true))
  | none => reached = epoch ∧ pending = false ∧ pc ≠ .entered ∧ pc ≠ .atBarrier

structure Wf (s : State n) : Prop where
  serviceLock : s.isWorldStartedLock = some none ↔ s.service.holdsLock
  threadLock : ∀ i, s.isWorldStartedLock = some (some i) ↔ (s.thread i).holdsLock
  serviceWaits : none ∈ s.barrier.waiting ↔ s.service = .atBarrier
  threadWaits : ∀ i, some i ∈ s.barrier.waiting ↔ s.thread i = .atBarrier
  count : s.service.sent n ≠ none → s.barrier.count = n + 1
  phase : ∀ i, Phase (s.service.sent n) s.epoch (s.reached i) (s.thread i) (s.pending i) i

theorem initial_wf (n : Nat) : Wf (initial n) := by
  constructor <;>
    simp [initial, ServicePc.holdsLock, HandlerPc.holdsLock, ServicePc.sent, Phase]

/-- A thread step that neither starts nor ends at the barrier. -/
theorem Wf.thread_step {s s' : State n} (h : Wf s) (i : Fin n)
    (hservice : s'.service = s.service) (hbarrier : s'.barrier = s.barrier)
    (hepoch : s'.epoch = s.epoch) (hreached : s'.reached = s.reached)
    (hothers : ∀ j, j ≠ i → s'.thread j = s.thread j ∧ s'.pending j = s.pending j ∧
      (s'.isWorldStartedLock = some (some j) ↔ s.isWorldStartedLock = some (some j)))
    (hlock : s'.isWorldStartedLock = some none ↔ s.isWorldStartedLock = some none)
    (hself : s'.isWorldStartedLock = some (some i) ↔ (s'.thread i).holdsLock)
    (hfrom : s.thread i ≠ .atBarrier) (hto : s'.thread i ≠ .atBarrier)
    (hentered : s'.thread i = .entered → s'.pending i = false)
    (hsignal : (s'.thread i = .entered ∨ s'.pending i = true) ↔
      (s.thread i = .entered ∨ s.pending i = true)) : Wf s' := by
  refine ⟨?_, ?_, ?_, ?_, ?_, ?_⟩
  · rw [hlock, hservice]
    exact h.serviceLock
  · intro j
    by_cases hj : j = i
    · rw [hj]
      exact hself
    · rw [(hothers j hj).2.2, (hothers j hj).1]
      exact h.threadLock j
  · rw [hbarrier, hservice]
    exact h.serviceWaits
  · intro j
    rw [hbarrier, h.threadWaits j]
    by_cases hj : j = i
    · rw [hj]
      exact ⟨fun hb => absurd hb hfrom, fun hb => absurd hb hto⟩
    · rw [(hothers j hj).1]
  · rw [hbarrier, hservice]
    exact h.count
  · intro j
    have hp := h.phase j
    rw [hservice, hepoch, hreached]
    by_cases hj : j = i
    · subst j
      cases hs : s.service.sent n with
      | none =>
        simp only [hs, Phase] at hp ⊢
        obtain ⟨hr, hpend, hent, _⟩ := hp
        have hno : ¬ (s'.thread i = .entered ∨ s'.pending i = true) := by
          rw [hsignal]
          simp [hpend, hent]
        rw [not_or] at hno
        exact ⟨hr, by simpa using hno.2, hno.1, hto⟩
      | some k =>
        simp only [hs, Phase] at hp ⊢
        rcases hp with ⟨_, hb, _⟩ | ⟨hr, _, _, hsig⟩
        · exact absurd hb hfrom
        · exact Or.inr ⟨hr, hto, hentered, hsig.trans hsignal.symm⟩
    · rw [(hothers j hj).1, (hothers j hj).2.1]
      exact hp

theorem deliver_wf {s s' : State n} {i : Fin n} (h : Wf s)
    (hs : step s (.deliver i) = some s') : Wf s' := by
  simp only [step, Option.ite_none_right_eq_some, Option.some.injEq] at hs
  obtain ⟨⟨hu, hp⟩, rfl⟩ := hs
  have hl := h.threadLock i
  refine h.thread_step i rfl rfl rfl rfl ?_ Iff.rfl ?_ ?_ ?_ ?_ ?_
  · intro j hj
    simp [setThread, hj]
  all_goals simp [setThread, hu, hp, HandlerPc.holdsLock] at hl ⊢
  exact hl

theorem lock_wf {s s' : State n} {i : Fin n} (h : Wf s)
    (hs : step s (.lock i) = some s') : Wf s' := by
  simp only [step, Option.ite_none_right_eq_some, Option.some.injEq] at hs
  obtain ⟨⟨hu, hp⟩, rfl⟩ := hs
  refine h.thread_step i rfl rfl rfl rfl ?_ ?_ ?_ ?_ ?_ ?_ ?_
  · intro j hj
    simp [setThread, hj, hp, Ne.symm hj]
  all_goals simp [setThread, hu, hp, HandlerPc.holdsLock]

theorem test_wf {s s' : State n} {i : Fin n} (h : Wf s)
    (hs : step s (.test i) = some s') : Wf s' := by
  simp only [step, Option.ite_none_right_eq_some] at hs
  obtain ⟨hu, hs⟩ := hs
  have hl : s.isWorldStartedLock = some (some i) :=
    (h.threadLock i).mpr (by simp [hu, HandlerPc.holdsLock])
  split at hs
  · cases hs
    refine h.thread_step i rfl rfl rfl rfl ?_ Iff.rfl ?_ ?_ ?_ ?_ ?_
    · intro j hj
      simp [setThread, hj]
    all_goals simp [setThread, hu, hl, HandlerPc.holdsLock]
  · cases hs
    refine h.thread_step i rfl rfl rfl rfl ?_ ?_ ?_ ?_ ?_ ?_ ?_
    · intro j hj
      simp [setThread, hj, hl, Ne.symm hj]
    all_goals simp [setThread, hu, hl, HandlerPc.holdsLock]

theorem wakeUp_wf {s s' : State n} {i : Fin n} (h : Wf s)
    (hs : step s (.wakeUp i) = some s') : Wf s' := by
  simp only [step, Option.ite_none_right_eq_some, Option.some.injEq] at hs
  obtain ⟨hu, rfl⟩ := hs
  have hl := h.threadLock i
  refine h.thread_step i rfl rfl rfl rfl ?_ Iff.rfl ?_ ?_ ?_ ?_ ?_
  · intro j hj
    simp [setThread, hj]
  all_goals simp [setThread, hu, HandlerPc.holdsLock] at hl ⊢
  exact hl

theorem relock_wf {s s' : State n} {i : Fin n} (h : Wf s)
    (hs : step s (.relock i) = some s') : Wf s' := by
  simp only [step, Option.ite_none_right_eq_some, Option.some.injEq] at hs
  obtain ⟨⟨hu, hp⟩, rfl⟩ := hs
  refine h.thread_step i rfl rfl rfl rfl ?_ ?_ ?_ ?_ ?_ ?_ ?_
  · intro j hj
    simp [setThread, hj, hp, Ne.symm hj]
  all_goals simp [setThread, hu, hp, HandlerPc.holdsLock]

theorem unlock_wf {s s' : State n} {i : Fin n} (h : Wf s)
    (hs : step s (.unlock i) = some s') : Wf s' := by
  simp only [step, Option.ite_none_right_eq_some, Option.some.injEq] at hs
  obtain ⟨hu, rfl⟩ := hs
  have hl : s.isWorldStartedLock = some (some i) :=
    (h.threadLock i).mpr (by simp [hu, HandlerPc.holdsLock])
  refine h.thread_step i rfl rfl rfl rfl ?_ ?_ ?_ ?_ ?_ ?_ ?_
  · intro j hj
    simp [setThread, hj, hl, Ne.symm hj]
  all_goals simp [setThread, hu, hl, HandlerPc.holdsLock]

/-- All parties let go at once. -/
def opened (s : State n) : State n :=
  { s with
    barrier := { s.barrier with waiting := ∅ }
    thread := fun _ => .passed
    service := .barrierPassed }

/-- The party stays at the barrier. -/
def parked (s : State n) (p : Party n) : State n :=
  { s with
    barrier := { s.barrier with waiting := insert p s.barrier.waiting }
    thread := fun i => if p = some i then .atBarrier else s.thread i
    service := if p = none then .atBarrier else s.service }

/-- Whoever finds all others at the barrier opens it. -/
theorem Wf.barrierWait_full {s : State n} (h : Wf s) (hr : s.service.sent n ≠ none)
    {p : Party n} (hall : ∀ q, q = p ∨ q ∈ s.barrier.waiting) : barrierWait s p = opened s := by
  have huniv : insert p s.barrier.waiting = Finset.univ := by
    ext q
    simp [Finset.mem_insert, hall q]
  rcases Barrier.arrive_cases s.barrier p with ⟨-, ha⟩ | ⟨hcard, -⟩
  · have hmem : ∀ q, q ∈ insert p s.barrier.waiting := fun q => Finset.mem_insert.mpr (hall q)
    simp only [barrierWait, opened, ha, if_pos (hmem _)]
  · refine absurd ?_ hcard
    rw [huniv, h.count hr, Finset.card_univ]
    simp

/-- In an open round the barrier is sized for every party, so whoever completes it
finds all the others waiting. -/
theorem Wf.barrierWait_cases {s : State n} (h : Wf s) (hr : s.service.sent n ≠ none)
    (p : Party n) :
    ((∀ q, q = p ∨ q ∈ s.barrier.waiting) ∧ barrierWait s p = opened s) ∨
      barrierWait s p = parked s p := by
  rcases Barrier.arrive_cases s.barrier p with ⟨full, -⟩ | ⟨-, ha⟩
  · have hall : ∀ q, q = p ∨ q ∈ s.barrier.waiting :=
      Barrier.opens_for_all (by simp [h.count hr]) full
    exact Or.inl ⟨hall, h.barrierWait_full hr hall⟩
  · right
    simp [barrierWait, parked, ha]

theorem Phase.parked {k epoch reached i : Nat} {pending : Bool}
    (h : Phase (some k) epoch reached .atBarrier pending i) :
    reached = epoch ∧ pending = false := by
  rcases h with h | h
  · exact ⟨h.1, h.2.2.1⟩
  · exact absurd rfl h.2.1

theorem Phase.onItsWay {k epoch reached i : Nat} {pending : Bool}
    (h : Phase (some k) epoch reached .entered pending i) :
    reached < epoch ∧ pending = false ∧ i < k := by
  rcases h with h | h
  · exact absurd h.2.1 (by simp)
  · exact ⟨h.1, h.2.2.1 rfl, h.2.2.2.mpr (Or.inl rfl)⟩

/-- Once the barrier opens, every thread is past it and nobody holds the lock. -/
theorem opened_wf {s : State n} (reached : Fin n → Nat)
    (hlock : s.isWorldStartedLock = none)
    (hround : ∀ i, reached i = s.epoch ∧ s.pending i = false) :
    Wf { opened s with reached := reached } := by
  refine ⟨?_, ?_, ?_, ?_, ?_, ?_⟩
  · simp [opened, hlock, ServicePc.holdsLock]
  · simp [opened, hlock, HandlerPc.holdsLock]
  · simp [opened]
  · simp [opened]
  · simp [opened, ServicePc.sent]
  · intro i
    simp [opened, ServicePc.sent, Phase, hround i]

/-- With everybody at the barrier or on the way to it, the lock is free. -/
theorem Wf.lock_free {s : State n} (h : Wf s) (hservice : ¬ s.service.holdsLock)
    (hthread : ∀ i, ¬ (s.thread i).holdsLock) : s.isWorldStartedLock = none := by
  cases hl : s.isWorldStartedLock with
  | none => rfl
  | some p =>
    cases p with
    | none => exact absurd (h.serviceLock.mp hl) hservice
    | some i => exact absurd ((h.threadLock i).mp hl) (hthread i)

theorem arrive_wf {s s' : State n} {i : Fin n} (h : Wf s)
    (hs : step s (.arrive i) = some s') : Wf s' := by
  simp only [step, Option.ite_none_right_eq_some, Option.some.injEq] at hs
  obtain ⟨hu, rfl⟩ := hs
  have hi := h.phase i
  rw [hu] at hi
  cases hk : s.service.sent n with
  | none => simp [hk, Phase] at hi
  | some k =>
    rw [hk] at hi
    obtain ⟨hreached, hpend, hik⟩ := hi.onItsWay
    rcases h.barrierWait_cases (p := some i) (by simp [hk]) with ⟨hall, hopen⟩ | hpark
    · have hservice : s.service = .atBarrier :=
        h.serviceWaits.mp ((hall none).resolve_left (by simp))
      have hthread : ∀ j, j ≠ i → s.thread j = .atBarrier := fun j hj =>
        (h.threadWaits j).mp ((hall (some j)).resolve_left (by simpa using hj))
      have hfree : s.isWorldStartedLock = none := by
        refine h.lock_free (by simp [hservice, ServicePc.holdsLock]) fun j => ?_
        by_cases hj : j = i
        · simp [hj, hu, HandlerPc.holdsLock]
        · simp [hthread j hj, HandlerPc.holdsLock]
      rw [hopen]
      refine opened_wf _ hfree fun j => ?_
      by_cases hj : j = i
      · simp [hj, hpend]
      · have hp := h.phase j
        rw [hk, hthread j hj] at hp
        simpa [hj] using hp.parked
    · have hself : s.isWorldStartedLock ≠ some (some i) := by
        rw [Ne, h.threadLock i]
        simp [hu, HandlerPc.holdsLock]
      rw [hpark]
      refine ⟨h.serviceLock, ?_, ?_, ?_, h.count, ?_⟩
      · intro j
        by_cases hj : i = j
        · subst j
          simp [parked, hself, HandlerPc.holdsLock]
        · simpa [parked, hj] using h.threadLock j
      · simpa [parked] using h.serviceWaits
      · intro j
        by_cases hj : i = j
        · simp [parked, hj]
        · simpa [parked, hj, Ne.symm hj] using h.threadWaits j
      · intro j
        by_cases hj : i = j
        · subst j
          simp [parked, hk, Phase, hpend, hik]
        · simpa [parked, hj, Ne.symm hj] using h.phase j

/-- The service thread arrives at the barrier after the last signal. -/
theorem barrierWait_service_wf {s : State n} {k : Nat} (h : Wf s)
    (hservice : s.service = .signalling k) (hk : n ≤ k) : Wf (barrierWait s none) := by
  have hsent : s.service.sent n = some k := by simp [hservice, ServicePc.sent]
  rcases h.barrierWait_cases (p := none) (by simp [hsent]) with ⟨hall, hopen⟩ | hpark
  · have hthread : ∀ j, s.thread j = .atBarrier := fun j =>
      (h.threadWaits j).mp ((hall (some j)).resolve_left (by simp))
    have hfree : s.isWorldStartedLock = none := by
      refine h.lock_free (by simp [hservice, ServicePc.holdsLock]) fun j => ?_
      simp [hthread j, HandlerPc.holdsLock]
    rw [hopen]
    refine opened_wf s.reached hfree fun j => ?_
    have hp := h.phase j
    rw [hsent, hthread j] at hp
    exact hp.parked
  · have hl := h.serviceLock
    rw [hpark]
    refine ⟨?_, ?_, ?_, ?_, ?_, ?_⟩
    · simpa [parked, hservice, ServicePc.holdsLock] using hl
    · simpa [parked] using h.threadLock
    · simp [parked]
    · simpa [parked] using h.threadWaits
    · exact fun _ => h.count (by simp [hsent])
    · intro j
      have hp := h.phase j
      have hj : j.val < k := by omega
      rw [hsent] at hp
      simpa [parked, ServicePc.sent, Phase, hj] using hp

/-- A service step that touches neither the barrier nor the registered threads. -/
theorem Wf.service_step {s : State n} (h : Wf s) (pc : ServicePc) (lock : Mutex (Party n))
    (flag : Bool) (hfrom : s.service ≠ .atBarrier) (hto : pc ≠ .atBarrier)
    (hsent : pc.sent n = s.service.sent n)
    (hlock : lock = some none ↔ pc.holdsLock)
    (hother : ∀ i, lock = some (some i) ↔ s.isWorldStartedLock = some (some i)) :
    Wf { s with service := pc, isWorldStartedLock := lock, isWorldStarted := flag } := by
  refine ⟨hlock, fun i => (hother i).trans (h.threadLock i), ?_, h.threadWaits, ?_, ?_⟩
  · simpa [hto, hfrom] using h.serviceWaits
  · simpa [hsent] using h.count
  · simpa [hsent] using h.phase

theorem Wf.outside_step {s : State n} (h : Wf s) (hservice : s.service = .outside) :
    Wf { s with service := .counted, barrier := ⟨n + 1, ∅⟩, epoch := s.epoch + 1 } := by
  have hp := h.phase
  have hl := h.serviceLock
  simp only [hservice, ServicePc.sent, Phase] at hp
  refine ⟨?_, h.threadLock, ?_, ?_, ?_, ?_⟩
  · simpa [hservice, ServicePc.holdsLock] using hl
  · simp
  · simp [fun i => (hp i).2.2.2]
  · simp
  · intro i
    obtain ⟨hr, hpend, hent, hbar⟩ := hp i
    simp [ServicePc.sent, Phase, hr, hpend, hent, hbar]

theorem Wf.signal_step {s : State n} {k : Nat} (h : Wf s)
    (hservice : s.service = .signalling k) (hk : k < n) :
    Wf { s with service := .signalling (k + 1)
                pending := Function.update s.pending ⟨k, hk⟩ true } := by
  have hl := h.serviceLock
  have hw := h.serviceWaits
  refine ⟨?_, h.threadLock, ?_, h.threadWaits, ?_, ?_⟩
  · simpa [hservice, ServicePc.holdsLock] using hl
  · simpa [hservice] using hw
  · simpa [hservice, ServicePc.sent] using h.count
  · intro i
    have hp := h.phase i
    simp only [hservice, ServicePc.sent, Phase] at hp ⊢
    by_cases hi : i = ⟨k, hk⟩
    · subst i
      rcases hp with ⟨_, _, _, hlt⟩ | ⟨hr, hbar, _, hsig⟩
      · exact absurd hlt (by simp)
      · have hno : s.thread ⟨k, hk⟩ ≠ .entered := fun he =>
          absurd (hsig.mpr (Or.inl he)) (by simp)
        simp [hr, hbar, hno]
    · have hne : i.val ≠ k := fun he => hi (Fin.ext he)
      have hiff : i.val < k + 1 ↔ i.val < k := by omega
      simpa [Function.update_of_ne hi, hiff] using hp

theorem Wf.broadcast_step {s : State n} (h : Wf s) (hservice : s.service = .broadcasting) :
    Wf { s with service := .broadcasted
                thread := fun i => if s.thread i = .waiting then .woken else s.thread i } := by
  have hl := h.serviceLock
  refine ⟨?_, ?_, ?_, ?_, ?_, ?_⟩
  · simpa [hservice, ServicePc.holdsLock] using hl
  · intro i
    have := h.threadLock i
    by_cases hi : s.thread i = .waiting
    · simpa [hi, HandlerPc.holdsLock] using this
    · simpa [hi] using this
  · simpa [hservice] using h.serviceWaits
  · intro i
    have := h.threadWaits i
    by_cases hi : s.thread i = .waiting
    · simpa [hi] using this
    · simpa [hi] using this
  · simp [ServicePc.sent]
  · intro i
    have hp := h.phase i
    simp only [hservice, ServicePc.sent, Phase] at hp ⊢
    by_cases hi : s.thread i = .waiting
    · simp [hi, hp.1, hp.2.1]
    · simpa [hi] using hp

theorem serviceStep_wf {s s' : State n} (h : Wf s) (hs : serviceStep s = some s') : Wf s' := by
  have hl := h.serviceLock
  unfold serviceStep at hs
  split at hs <;> rename_i hpc
  case h_1 => cases hs; exact h.outside_step hpc
  case h_2 =>
    split at hs <;> cases hs
    rename_i hfree
    refine h.service_step _ _ _ ?_ ?_ ?_ ?_ ?_ <;>
      simp [hpc, hfree, ServicePc.sent, ServicePc.holdsLock]
  case h_3 =>
    cases hs
    refine h.service_step _ s.isWorldStartedLock _ ?_ ?_ ?_ ?_ ?_ <;>
      simp [hpc, ServicePc.sent, ServicePc.holdsLock] at hl ⊢
    exact hl
  case h_4 =>
    cases hs
    rw [hpc] at hl
    refine h.service_step _ _ s.isWorldStarted ?_ ?_ ?_ ?_ ?_ <;>
      simp [hpc, ServicePc.sent, ServicePc.holdsLock] at hl ⊢
    simp [hl]
  case h_5 k =>
    split at hs <;> cases hs
    · exact h.signal_step hpc _
    · exact barrierWait_service_wf h hpc (by omega)
  case h_6 => cases hs
  case h_7 =>
    cases hs
    refine h.service_step _ s.isWorldStartedLock s.isWorldStarted ?_ ?_ ?_ ?_ ?_ <;>
      simp [hpc, ServicePc.sent, ServicePc.holdsLock] at hl ⊢
    exact hl
  case h_8 =>
    split at hs <;> cases hs
    rename_i hfree
    refine h.service_step _ _ s.isWorldStarted ?_ ?_ ?_ ?_ ?_ <;>
      simp [hpc, hfree, ServicePc.sent, ServicePc.holdsLock]
  case h_9 =>
    cases hs
    refine h.service_step _ s.isWorldStartedLock _ ?_ ?_ ?_ ?_ ?_ <;>
      simp [hpc, ServicePc.sent, ServicePc.holdsLock] at hl ⊢
    exact hl
  case h_10 =>
    cases hs
    rw [hpc] at hl
    refine h.service_step _ _ s.isWorldStarted ?_ ?_ ?_ ?_ ?_ <;>
      simp [hpc, ServicePc.sent, ServicePc.holdsLock] at hl ⊢
    simp [hl]
  case h_11 => cases hs; exact h.broadcast_step hpc
  case h_12 =>
    cases hs
    refine h.service_step _ s.isWorldStartedLock s.isWorldStarted ?_ ?_ ?_ ?_ ?_ <;>
      simp [hpc, ServicePc.sent, ServicePc.holdsLock] at hl ⊢
    exact hl

theorem step_wf {s s' : State n} {a : Action n} (h : Wf s) (hs : step s a = some s') :
    Wf s' := by
  cases a with
  | service => exact serviceStep_wf h hs
  | deliver i => exact deliver_wf h hs
  | arrive i => exact arrive_wf h hs
  | lock i => exact lock_wf h hs
  | test i => exact test_wf h hs
  | wakeUp i => exact wakeUp_wf h hs
  | relock i => exact relock_wf h hs
  | unlock i => exact unlock_wf h hs

theorem reachable_wf {ok : State n → Action n → Prop} {s : State n}
    (h : Reachable n ok s) : Wf s :=
  h.invariant (fun _ hi => hi ▸ initial_wf n) fun _ _ _ hw _ hs => step_wf hw hs

/-- What a thread does between two visits to the barrier. -/
inductive Moves (s : State n) (i : Fin n) : Action n → HandlerPc → Prop where
  | deliver (h : s.thread i = .user) (hp : s.pending i = true) : Moves s i (.deliver i) .entered
  | lock (h : s.thread i = .passed) : Moves s i (.lock i) .holding
  | skip (h : s.thread i = .holding) (hf : s.isWorldStarted = true) :
      Moves s i (.test i) .leaving
  | wait (h : s.thread i = .holding) (hf : s.isWorldStarted = false) :
      Moves s i (.test i) .waiting
  | wakeUp (h : s.thread i = .waiting) : Moves s i (.wakeUp i) .woken
  | relock (h : s.thread i = .woken) : Moves s i (.relock i) .leaving
  | unlock (h : s.thread i = .leaving) : Moves s i (.unlock i) .user

theorem thread_step_cases {s s' : State n} {a : Action n} (hs : step s a = some s')
    (ha : a ≠ .service) :
    (∃ i, a = .arrive i ∧ s.thread i = .entered ∧
      s' = { barrierWait s (some i) with reached := Function.update s.reached i s.epoch }) ∨
    ∃ i pc, Moves s i a pc ∧ s'.service = s.service ∧ s'.epoch = s.epoch ∧
      s'.reached = s.reached ∧ s'.isWorldStarted = s.isWorldStarted ∧
      s'.thread = Function.update s.thread i pc := by
  cases a with
  | service => exact absurd rfl ha
  | arrive i =>
    simp only [step, Option.ite_none_right_eq_some, Option.some.injEq] at hs
    exact Or.inl ⟨i, rfl, hs.1, hs.2.symm⟩
  | deliver i =>
    simp only [step, Option.ite_none_right_eq_some, Option.some.injEq] at hs
    obtain ⟨⟨hu, hp⟩, rfl⟩ := hs
    exact Or.inr ⟨i, _, .deliver hu hp, rfl, rfl, rfl, rfl, rfl⟩
  | lock i =>
    simp only [step, Option.ite_none_right_eq_some, Option.some.injEq] at hs
    obtain ⟨⟨hu, _⟩, rfl⟩ := hs
    exact Or.inr ⟨i, _, .lock hu, rfl, rfl, rfl, rfl, rfl⟩
  | test i =>
    simp only [step, Option.ite_none_right_eq_some] at hs
    obtain ⟨hu, hs⟩ := hs
    split at hs <;> cases hs <;> rename_i hf
    · exact Or.inr ⟨i, _, .skip hu hf, rfl, rfl, rfl, rfl, rfl⟩
    · exact Or.inr ⟨i, _, .wait hu (by simpa using hf), rfl, rfl, rfl, rfl, rfl⟩
  | wakeUp i =>
    simp only [step, Option.ite_none_right_eq_some, Option.some.injEq] at hs
    obtain ⟨hu, rfl⟩ := hs
    exact Or.inr ⟨i, _, .wakeUp hu, rfl, rfl, rfl, rfl, rfl⟩
  | relock i =>
    simp only [step, Option.ite_none_right_eq_some, Option.some.injEq] at hs
    obtain ⟨⟨hu, _⟩, rfl⟩ := hs
    exact Or.inr ⟨i, _, .relock hu, rfl, rfl, rfl, rfl, rfl⟩
  | unlock i =>
    simp only [step, Option.ite_none_right_eq_some, Option.some.injEq] at hs
    obtain ⟨hu, rfl⟩ := hs
    exact Or.inr ⟨i, _, .unlock hu, rfl, rfl, rfl, rfl, rfl⟩

/-- Arriving opens the barrier for all, or parks the thread and leaves the rest alone. -/
theorem arrive_cases {s : State n} {i : Fin n} (h : Wf s) (hu : s.thread i = .entered) :
    barrierWait s (some i) = opened s ∨ barrierWait s (some i) = parked s (some i) := by
  have hr : s.service.sent n ≠ none := by
    intro hn
    have hp := h.phase i
    simp [hn, Phase, hu] at hp
  exact (h.barrierWait_cases hr (some i)).imp_left And.right

/-- Phases of one collection in which `is_world_started` is false. -/
def ServicePc.flagDown : ServicePc → Prop
  | .cleared | .signalling _ | .atBarrier | .barrierPassed | .stopped | .starting => True
  | _ => False

/-- Phases between the opening of the barrier and the setting of the flag. -/
def ServicePc.worldHeld : ServicePc → Prop
  | .barrierPassed | .stopped | .starting => True
  | _ => False

/-- `pthread_cond_wait` does not return to a thread that reached the barrier of the collection
in progress before `start_the_world` has set the flag. It returns with the mutex taken. -/
def NoEarlyReturn (s : State n) (a : Action n) : Prop :=
  ∀ i, a = .relock i → s.reached i = s.epoch → s.isWorldStarted = true

def parkedInHandler (pc : HandlerPc) : Prop := pc = .passed ∨ pc = .holding ∨ pc = .waiting

/-- Past the barrier and not past `pthread_cond_wait`. -/
def heldInHandler (pc : HandlerPc) : Prop := parkedInHandler pc ∨ pc = .woken

structure HeldInv (s : State n) : Prop where
  flag : s.service.flagDown → s.isWorldStarted = false
  held : s.service.worldHeld → ∀ i, heldInHandler (s.thread i)

theorem opened_held {s : State n} (reached : Fin n → Nat) (h : s.isWorldStarted = false) :
    HeldInv { opened s with reached := reached } :=
  ⟨fun _ => h, fun _ _ => Or.inl (Or.inl rfl)⟩

theorem serviceStep_held {s s' : State n} (hw : Wf s) (h : HeldInv s)
    (hs : serviceStep s = some s') : HeldInv s' := by
  unfold serviceStep at hs
  have hflag := h.flag
  have hheld := h.held
  split at hs <;> rename_i hpc <;> simp only [hpc] at hflag hheld
  case h_5 k =>
    split at hs <;> cases hs
    · exact ⟨fun _ => hflag trivial, fun hf => hf.elim⟩
    · have hr : s.service.sent n ≠ none := by simp [hpc, ServicePc.sent]
      rcases hw.barrierWait_cases hr none with ⟨_, hb⟩ | hb
      · rw [hb]
        exact opened_held s.reached (hflag trivial)
      · rw [hb]
        exact ⟨fun _ => hflag trivial, fun hf => hf.elim⟩
  case h_6 => cases hs
  case h_7 => cases hs; exact ⟨fun _ => hflag trivial, fun _ => hheld trivial⟩
  case h_8 =>
    split at hs <;> cases hs
    exact ⟨fun _ => hflag trivial, fun _ => hheld trivial⟩
  case h_2 => split at hs <;> cases hs; exact ⟨fun hf => hf.elim, fun hf => hf.elim⟩
  case h_3 => cases hs; exact ⟨fun _ => rfl, fun hf => hf.elim⟩
  case h_4 => cases hs; exact ⟨fun _ => hflag trivial, fun hf => hf.elim⟩
  all_goals cases hs; exact ⟨fun hf => hf.elim, fun hf => hf.elim⟩

theorem ServicePc.worldHeld.flagDown {pc : ServicePc} (h : pc.worldHeld) : pc.flagDown := by
  cases pc <;> simp_all [ServicePc.worldHeld, ServicePc.flagDown]

/-- A thread that moves while the world is held stays in the handler. One that wakes up by
itself has yet to take the mutex again. -/
theorem Moves.stays_held {s : State n} {i : Fin n} {a : Action n} {pc : HandlerPc}
    (hm : Moves s i a pc) (hheld : heldInHandler (s.thread i))
    (hflag : s.isWorldStarted = false) (hreached : s.reached i = s.epoch)
    (hok : NoEarlyReturn s a) : heldInHandler pc := by
  cases hm with
  | deliver h => simp [h, heldInHandler, parkedInHandler] at hheld
  | lock h => exact Or.inl (Or.inr (Or.inl rfl))
  | skip h hf => rw [hflag] at hf; cases hf
  | wait h => exact Or.inl (Or.inr (Or.inr rfl))
  | wakeUp h => exact Or.inr rfl
  | relock h =>
    have hf := hok i rfl hreached
    rw [hflag] at hf
    cases hf
  | unlock h => simp [h, heldInHandler, parkedInHandler] at hheld

theorem inHandler_of_held {pc : HandlerPc} (h : heldInHandler pc) : inHandler pc := by
  rcases h with (rfl | rfl | rfl) | rfl <;> simp [inHandler]

theorem step_held {s s' : State n} {a : Action n} (hw : Wf s) (h : HeldInv s)
    (hok : NoEarlyReturn s a) (hs : step s a = some s') : HeldInv s' := by
  by_cases ha : a = .service
  · subst a
    exact serviceStep_held hw h hs
  rcases thread_step_cases hs ha with
    ⟨i, rfl, hu, rfl⟩ | ⟨i, pc, hm, hservice, _, _, hflag, hthread⟩
  · rcases arrive_cases hw hu with hb | hb
    · have hdown : s.service.flagDown := by
        have hp := hw.phase i
        cases hpc : s.service <;> simp_all [ServicePc.flagDown, Phase, ServicePc.sent]
      rw [hb]
      exact opened_held _ (h.flag hdown)
    · rw [hb]
      refine ⟨h.flag, fun hf j => ?_⟩
      have := h.held hf i
      simp [hu, heldInHandler, parkedInHandler] at this
  · refine ⟨fun hf => ?_, fun hf j => ?_⟩
    · rw [hflag]
      exact h.flag (hservice ▸ hf)
    · rw [hservice] at hf
      have hheld := h.held hf
      by_cases hj : j = i
      · have hp := hw.phase i
        have hsent : s.service.sent n = none := by
          cases hpc : s.service <;> simp_all [ServicePc.worldHeld, ServicePc.sent]
        simp only [hsent, Phase] at hp
        simpa [hthread, hj] using
          hm.stays_held (hheld i) (h.flag hf.flagDown) hp.1 hok
      · simpa [hthread, hj] using hheld j

theorem reachable_held {s : State n} (h : Reachable n NoEarlyReturn s) : HeldInv s :=
  h.invariant_of (fun _ hr => reachable_wf hr)
    (fun _ hi => hi ▸ ⟨fun hf => hf.elim, fun hf => hf.elim⟩)
    fun _ _ _ hw hi hok hs => step_held hw hi hok hs

/-- The world is stopped while the service thread marks and sweeps. -/
theorem world_stopped {s : State n} (h : Reachable n NoEarlyReturn s)
    (hstop : worldStopped s) : AllStopped s := by
  intro i
  have hheld : s.service.worldHeld := by
    rcases hstop with hpc | hpc <;> rw [hpc] <;> trivial
  have hsent : s.service.sent n = none := by
    rcases hstop with hpc | hpc <;> rw [hpc] <;> rfl
  have hp := (reachable_wf h).phase i
  simp only [hsent, Phase] at hp
  refine ⟨?_, hp.1⟩
  exact inHandler_of_held ((reachable_held h).held hheld i)

instance (s : State n) : Decidable (worldStopped s) :=
  inferInstanceAs (Decidable (_ ∨ _))

instance (pc : HandlerPc) : Decidable (inHandler pc) := inferInstanceAs (Decidable (_ ≠ _))

instance (s : State n) : Decidable (AllStopped s) :=
  inferInstanceAs (Decidable (∀ _, _ ∧ _))

instance (s : State n) (a : Action n) : Decidable (NoEarlyReturn s a) :=
  inferInstanceAs (Decidable (∀ _, _ → _ → _))

/-- Two registered threads, both waiting; one of them is woken by nobody and not given the
mutex yet. -/
def stopTwo (i j : Fin 2) : List (Action 2) :=
  List.replicate 5 .service ++ [.deliver i, .service, .deliver j, .arrive j, .arrive i, .service] ++
    [.lock j, .test j, .lock i, .wakeUp j, .test i, .service]

theorem world_stopped_two :
    ∃ s : State 2, worldStopped s ∧ s.thread 0 = .waiting ∧ s.thread 1 = .woken ∧
      AllStopped s := by
  obtain ⟨s, hr, hstop, hwait, hwoken⟩ := Transition.reachable_of_run (initial 2) (stopTwo 0 1)
    (fun s => worldStopped s ∧ s.thread 0 = .waiting ∧ s.thread 1 = .woken)
    step NoEarlyReturn (by decide)
  exact ⟨s, hstop, hwait, hwoken, world_stopped hr hstop⟩

/-- One registered thread, stopped up to its test of the flag. -/
def stopOne (i : Fin 1) : List (Action 1) :=
  List.replicate 5 .service ++ [.deliver i, .arrive i, .service, .lock i, .test i, .service]

/-- The thread leaves `pthread_cond_wait` on its own and runs on while the service thread
marks: `handler` does not test the flag again. -/
theorem resumes_during_collection :
    ¬ ∀ (n : Nat) (s : State n), Reachable n Transition.anyStep s → worldStopped s →
      AllStopped s := by
  intro h
  obtain ⟨s, hr, hstop, hresumed⟩ := Transition.reachable_of_run (initial 1)
    (stopOne 0 ++ [.wakeUp 0, .relock 0, .unlock 0])
    (fun s => worldStopped s ∧ ¬ AllStopped s) step Transition.anyStep (by decide)
  exact hresumed (h 1 s hr hstop)

/-- `stop_the_world` lowers the flag only when no thread is still between an earlier
barrier and its test of the flag. -/
def NoStragglerAtReset (s : State n) (a : Action n) : Prop :=
  a = .service → s.service = .resetting → ∀ i, s.thread i ≠ .passed

/-- Phases in which the last broadcast is over and the flag not lowered yet. -/
def ServicePc.afterBroadcast : ServicePc → Prop
  | .broadcasted | .outside | .counted | .resetting => True
  | _ => False

/-- Phases between the lowering of the flag and the opening of the barrier. -/
def ServicePc.gathering : ServicePc → Prop
  | .cleared | .signalling _ | .atBarrier => True
  | _ => False

def ServicePc.flagUp : ServicePc → Prop
  | .started | .broadcasting => True
  | pc => pc.afterBroadcast

structure HandshakeInv (s : State n) : Prop where
  flag : s.service.flagUp → s.isWorldStarted = true ∨ ∀ i, s.thread i = .user
  awake : s.service.afterBroadcast → ∀ i, s.thread i ≠ .waiting
  gathered : s.service.gathering → ∀ i, ¬ parkedInHandler (s.thread i)

theorem initial_handshake (n : Nat) : HandshakeInv (initial n) :=
  ⟨fun _ => Or.inr fun _ => rfl, fun _ _ => nofun, fun hf => hf.elim⟩

theorem serviceStep_handshake {s s' : State n} (hw : Wf s) (h : HandshakeInv s)
    (hok : NoStragglerAtReset s .service) (hs : serviceStep s = some s') :
    HandshakeInv s' := by
  unfold serviceStep at hs
  obtain ⟨hflag, hawake, hgathered⟩ := h
  split at hs <;> rename_i hpc <;> simp only [hpc] at hflag hawake hgathered
  case h_1 =>
    cases hs
    exact ⟨fun _ => hflag trivial, fun _ => hawake trivial, fun hf => hf.elim⟩
  case h_2 =>
    split at hs <;> cases hs
    exact ⟨fun _ => hflag trivial, fun _ => hawake trivial, fun hf => hf.elim⟩
  case h_3 =>
    cases hs
    refine ⟨fun hf => hf.elim, fun hf => hf.elim, fun _ i hi => ?_⟩
    rcases hi with hi | hi | hi
    · exact hok rfl hpc i hi
    · have hmine := (hw.threadLock i).mpr (Or.inl hi)
      have hservice := hw.serviceLock.mpr (by simp [hpc, ServicePc.holdsLock])
      rw [hservice] at hmine
      cases hmine
    · exact hawake trivial i hi
  case h_4 => cases hs; exact ⟨fun hf => hf.elim, fun hf => hf.elim, fun _ => hgathered trivial⟩
  case h_5 k =>
    split at hs <;> cases hs
    · exact ⟨fun hf => hf.elim, fun hf => hf.elim, fun _ => hgathered trivial⟩
    · have hr : s.service.sent n ≠ none := by simp [hpc, ServicePc.sent]
      rcases hw.barrierWait_cases hr none with ⟨_, hb⟩ | hb
      · rw [hb]
        exact ⟨fun hf => hf.elim, fun hf => hf.elim, fun hf => hf.elim⟩
      · rw [hb]
        refine ⟨fun hf => hf.elim, fun hf => hf.elim, fun _ i => ?_⟩
        simpa [parked] using hgathered trivial i
  case h_6 => cases hs
  case h_8 =>
    split at hs <;> cases hs
    exact ⟨fun hf => hf.elim, fun hf => hf.elim, fun hf => hf.elim⟩
  case h_9 => cases hs; exact ⟨fun _ => Or.inl rfl, fun hf => hf.elim, fun hf => hf.elim⟩
  case h_10 => cases hs; exact ⟨fun _ => hflag trivial, fun hf => hf.elim, fun hf => hf.elim⟩
  case h_11 =>
    cases hs
    refine ⟨fun _ => ?_, fun _ i => ?_, fun hf => hf.elim⟩
    · rcases hflag trivial with hf | hu
      · exact Or.inl hf
      · exact Or.inr fun i => by simp [hu i]
    · by_cases hi : s.thread i = .waiting <;> simp [hi]
  case h_12 =>
    cases hs
    exact ⟨fun _ => hflag trivial, fun _ => hawake trivial, fun hf => hf.elim⟩
  all_goals cases hs; exact ⟨fun hf => hf.elim, fun hf => hf.elim, fun hf => hf.elim⟩

theorem ServicePc.afterBroadcast.flagUp {pc : ServicePc} (h : pc.afterBroadcast) :
    pc.flagUp := by
  cases pc <;> first | exact h | exact h.elim

/-- While the flag is up no signal is pending. -/
theorem Wf.not_pending {s : State n} (h : Wf s) (hf : s.service.flagUp) (i : Fin n) :
    s.pending i = false := by
  have hp := h.phase i
  cases hpc : s.service <;>
    simp_all [ServicePc.flagUp, ServicePc.afterBroadcast, ServicePc.sent, Phase]

theorem Moves.handshake {s s' : State n} {i : Fin n} {a : Action n} {pc : HandlerPc}
    (hw : Wf s) (h : HandshakeInv s) (hm : Moves s i a pc) (hservice : s'.service = s.service)
    (hflag : s'.isWorldStarted = s.isWorldStarted)
    (hthread : s'.thread = Function.update s.thread i pc) : HandshakeInv s' := by
  refine ⟨fun hf => ?_, fun hf j => ?_, fun hf j => ?_⟩
  · rw [hservice] at hf
    rcases h.flag hf with hup | huser
    · exact Or.inl (hflag.trans hup)
    · have hnp := hw.not_pending hf i
      have hu := huser i
      cases hm <;> simp_all
  · rw [hservice] at hf
    have hawake := h.awake hf
    by_cases hj : j = i
    · subst j
      rw [hthread, Function.update_self]
      intro hwait
      cases hm <;> cases hwait
      rename_i hu hdown
      rcases h.flag hf.flagUp with hup | huser
      · rw [hup] at hdown; cases hdown
      · rw [huser i] at hu; cases hu
    · simpa [hthread, hj] using hawake j
  · rw [hservice] at hf
    have hgathered := h.gathered hf
    by_cases hj : j = i
    · subst j
      have hi := hgathered i
      rw [hthread, Function.update_self]
      cases hm <;> simp_all [parkedInHandler]
    · simpa [hthread, hj] using hgathered j

theorem step_handshake {s s' : State n} {a : Action n} (hw : Wf s) (h : HandshakeInv s)
    (hok : NoStragglerAtReset s a) (hs : step s a = some s') : HandshakeInv s' := by
  by_cases ha : a = .service
  · subst a
    exact serviceStep_handshake hw h hok hs
  rcases thread_step_cases hs ha with
    ⟨i, rfl, hu, rfl⟩ | ⟨i, pc, hm, hservice, _, _, hflag, hthread⟩
  · rcases arrive_cases hw hu with hb | hb
    · rw [hb]
      exact ⟨fun hf => hf.elim, fun hf => hf.elim, fun hf => hf.elim⟩
    · rw [hb]
      refine ⟨fun hf => ?_, fun hf j => ?_, fun hf j => ?_⟩
      · rcases h.flag hf with hup | huser
        · exact Or.inl hup
        · rw [huser i] at hu; cases hu
      · by_cases hj : i = j
        · simp [parked, hj]
        · simpa [parked, hj] using h.awake hf j
      · by_cases hj : i = j
        · simp [parked, hj, parkedInHandler]
        · simpa [parked, hj] using h.gathered hf j
  · exact hm.handshake hw h hservice hflag hthread

theorem reachable_handshake {s : State n} (h : Reachable n NoStragglerAtReset s) :
    HandshakeInv s :=
  h.invariant_of (fun _ hr => reachable_wf hr) (fun _ hi => hi ▸ initial_handshake n)
    fun _ _ _ hw hi hok hs => step_handshake hw hi hok hs

/-- No collection is stuck at its barrier behind a thread that waits to be restarted. -/
theorem not_stuck {s : State n} (h : Reachable n NoStragglerAtReset s) : ¬ Stuck s := by
  rintro ⟨hservice, i, _, hwaiting⟩
  have hg : s.service.gathering := by rw [hservice]; trivial
  exact (reachable_handshake h).gathered hg i (Or.inr (Or.inr hwaiting))

instance (s : State n) : Decidable (Stuck s) :=
  inferInstanceAs (Decidable (_ ∧ ∃ _, _ ∧ _))

instance (s : State n) (a : Action n) : Decidable (NoStragglerAtReset s a) :=
  inferInstanceAs (Decidable (_ → _ → ∀ _, _))

/-- The first collection with two threads, up to the return of `start_the_world`: thread `j`
has waited and was woken, thread `i` has only passed the barrier. -/
def firstCollection (i j : Fin 2) : List (Action 2) :=
  List.replicate 6 .service ++ [.deliver i, .arrive i, .deliver j, .arrive j, .service] ++
    [.lock j, .test j] ++ List.replicate 6 .service ++ [.relock j, .unlock j]

/-- The second collection up to the service thread's arrival at the barrier. -/
def secondStop (j : Fin 2) : List (Action 2) :=
  List.replicate 6 .service ++ [.deliver j, .arrive j, .service]

theorem not_stuck_second_round :
    ∃ s : State 2, s.service = .atBarrier ∧ s.epoch = 2 ∧ ¬ Stuck s := by
  obtain ⟨s, hr, hservice, hepoch⟩ := Transition.reachable_of_run (initial 2)
    (firstCollection 0 1 ++ [.lock 0, .test 0, .unlock 0] ++ secondStop 1)
    (fun s => s.service = .atBarrier ∧ s.epoch = 2) step NoStragglerAtReset (by decide)
  exact ⟨s, hservice, hepoch, not_stuck hr⟩

/-- Thread 0 is slow to leave the first collection, finds the flag lowered by the second
one and waits for a restart that the second one can only give after thread 0 arrives. -/
theorem straggler_sticks :
    ¬ ∀ (n : Nat) (s : State n), Reachable n Transition.anyStep s → ¬ Stuck s := by
  intro h
  obtain ⟨s, hr, hstuck⟩ := Transition.reachable_of_run (initial 2)
    (firstCollection 0 1 ++ List.replicate 4 .service ++ [.lock 0, .test 0] ++
      List.replicate 2 .service ++ [.deliver 1, .arrive 1, .service])
    Stuck step Transition.anyStep (by decide)
  exact h 2 s hr hstuck

end GarbageCollector.StopTheWorld
