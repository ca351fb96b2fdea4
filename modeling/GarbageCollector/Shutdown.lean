import GarbageCollector.ServiceThread
import Mathlib.Tactic

/-!
# The rendezvous at shutdown

`__destroy_mt_safety`, the loop of `service_thread_routine` and `call_service_thread`, for any
number of calling threads. A step is one operation on a lock, the barrier or a flag. The
allocation lock is left out, as no thread takes it here but the service thread, and so is what
`__destroy_mt_safety` destroys after its rendezvous. Every run of `ServiceThread` is a run before
the shutdown begins.
-/

namespace GarbageCollector.Shutdown

open Sync

/-- Where a thread is in `call_service_thread`, which it may call again and again. -/
inductive CallerPc where
  | user
  | called
  | locked
  | arriving
  | atBarrier
  | passed
  | delivered
  | leaving
  deriving DecidableEq, Repr

/-- Where the service thread is in its loop. At `summoned` it tests `kill_service_thread`. -/
inductive ServicePc where
  | waiting
  | ready
  | atBarrier
  | summoned
  | exclusive
  | collecting
  | swept
  | resetting
  | reset
  | exited
  deriving DecidableEq, Repr

/-- Where the main thread is in `__destroy_mt_safety`. -/
inductive DestroyerPc where
  | running
  | killing
  | atBarrier
  | met
  deriving DecidableEq, Repr

inductive Party (n : Nat) where
  | service
  | destroyer
  | caller (i : Fin n)
  deriving DecidableEq, Repr

/-- `rendezvous` lists the parties that have met at the barrier, the last first. -/
@[ext]
structure State (n : Nat) where
  caller : Fin n → CallerPc
  service : ServicePc
  destroyer : DestroyerPc
  serviceThrdCallLock : Mutex (Party n)
  signalDeliveryLock : Mutex (Party n)
  signalBarrier : Barrier (Party n)
  isGcCalled : Bool
  killServiceThread : Bool
  rendezvous : List (Finset (Party n))

def initial (n : Nat) : State n where
  caller := fun _ => .user
  service := .waiting
  destroyer := .running
  serviceThrdCallLock := none
  signalDeliveryLock := none
  signalBarrier := ⟨2, ∅⟩
  isGcCalled := false
  killServiceThread := false
  rendezvous := []

inductive Action (n : Nat) where
  | caller (i : Fin n)
  | service
  | destroyer
  deriving DecidableEq, Repr

variable {n : Nat}

def setCaller (s : State n) (i : Fin n) (pc : CallerPc) : State n :=
  { s with caller := Function.update s.caller i pc }

/-- `pthread_barrier_wait(&signal_barrier)` called by `p`. -/
def barrierWait (s : State n) (p : Party n) : State n :=
  let opened := (s.signalBarrier.arrive p).2
  { s with
    signalBarrier := (s.signalBarrier.arrive p).1
    caller := fun i => if .caller i ∈ opened then .passed
      else if p = .caller i then .atBarrier else s.caller i
    service := if .service ∈ opened then .summoned
      else if p = .service then .atBarrier else s.service
    destroyer := if .destroyer ∈ opened then .met
      else if p = .destroyer then .atBarrier else s.destroyer
    rendezvous := if opened = ∅ then s.rendezvous else opened :: s.rendezvous }

/-- `call_service_thread`. -/
def callerStep (s : State n) (i : Fin n) : Option (State n) :=
  match s.caller i with
  | .user => some (setCaller s i .called)
  | .called =>
    if s.serviceThrdCallLock = none then
      some { setCaller s i .locked with serviceThrdCallLock := some (.caller i) }
    else none
  | .locked =>
    if s.isGcCalled = true then some (setCaller s i .leaving)
    else some { setCaller s i .arriving with isGcCalled := true }
  | .arriving => some (barrierWait s (.caller i))
  | .atBarrier => none
  | .passed =>
    if s.signalDeliveryLock = none then
      some { setCaller s i .delivered with signalDeliveryLock := some (.caller i) }
    else none
  | .delivered => some { setCaller s i .leaving with signalDeliveryLock := none }
  | .leaving => some { setCaller s i .user with serviceThrdCallLock := none }

/-- The loop of `service_thread_routine`, which ends with the spin lock still held. -/
def serviceStep (s : State n) : Option (State n) :=
  match s.service with
  | .waiting =>
    if s.signalDeliveryLock = none then
      some { s with service := .ready, signalDeliveryLock := some .service }
    else none
  | .ready => some (barrierWait s .service)
  | .atBarrier => none
  | .summoned =>
    if s.killServiceThread = true then some { s with service := .exited }
    else some { s with service := .exclusive }
  | .exclusive => some { s with service := .collecting, signalDeliveryLock := none }
  | .collecting => some { s with service := .swept }
  | .swept =>
    if s.serviceThrdCallLock = none then
      some { s with service := .resetting, serviceThrdCallLock := some .service }
    else none
  | .resetting => some { s with service := .reset, isGcCalled := false }
  | .reset => some { s with service := .waiting, serviceThrdCallLock := none }
  | .exited => none

/-- `__destroy_mt_safety`. -/
def destroyerStep (s : State n) : Option (State n) :=
  match s.destroyer with
  | .running => some { s with destroyer := .killing, killServiceThread := true }
  | .killing => some (barrierWait s .destroyer)
  | .atBarrier => none
  | .met => none

def step (s : State n) : Action n → Option (State n)
  | .caller i => callerStep s i
  | .service => serviceStep s
  | .destroyer => destroyerStep s

/-- The flag is raised only when no request is under way between a caller's arrival at the
barrier and the test of the flag, and no caller arrives once it is raised. -/
def QuietShutdown (s : State n) : Action n → Prop
  | .caller i => s.caller i = .arriving → s.killServiceThread = false
  | .service => True
  | .destroyer =>
    s.destroyer = .running → s.service ≠ .summoned ∧ ∀ i, s.caller i ≠ .atBarrier

instance (s : State n) (a : Action n) : Decidable (QuietShutdown s a) :=
  match a with
  | .caller i =>
    inferInstanceAs (Decidable (s.caller i = .arriving → s.killServiceThread = false))
  | .service => isTrue trivial
  | .destroyer => inferInstanceAs (Decidable
      (s.destroyer = .running → s.service ≠ .summoned ∧ ∀ i, s.caller i ≠ .atBarrier))

def CallerPc.holdsCallLock : CallerPc → Bool
  | .user | .called => false
  | _ => true

def ServicePc.holdsCallLock : ServicePc → Bool
  | .resetting | .reset => true
  | _ => false

def ServicePc.holdsDelivery : ServicePc → Bool
  | .ready | .atBarrier | .summoned | .exclusive | .exited => true
  | _ => false

/-- The service thread has left the rendezvous and not yet asked for the mutex. -/
def ServicePc.serving : ServicePc → Bool
  | .exclusive | .collecting | .swept => true
  | _ => false

namespace State

def holdsCallLock (s : State n) : Party n → Bool
  | .service => s.service.holdsCallLock
  | .destroyer => false
  | .caller i => (s.caller i).holdsCallLock

def holdsDelivery (s : State n) : Party n → Bool
  | .service => s.service.holdsDelivery
  | .destroyer => false
  | .caller i => s.caller i = .delivered

def waits (s : State n) : Party n → Bool
  | .service => s.service = .atBarrier
  | .destroyer => s.destroyer = .atBarrier
  | .caller i => s.caller i = .atBarrier

/-- What the program counters say of each party. -/
def holds (caller : CallerPc → Bool) (service : ServicePc → Bool) (destroyer : DestroyerPc → Bool)
    (s : State n) : Party n → Bool
  | .service => service s.service
  | .destroyer => destroyer s.destroyer
  | .caller i => caller (s.caller i)

section Holds

variable {caller : CallerPc → Bool} {service : ServicePc → Bool} {destroyer : DestroyerPc → Bool}
  {s s' : State n} {i : Fin n} {v w : Bool}

theorem holdsCallLock_eq (s : State n) :
    s.holdsCallLock =
      s.holds CallerPc.holdsCallLock ServicePc.holdsCallLock fun _ => false := by
  funext p
  cases p <;> rfl

theorem holdsDelivery_eq (s : State n) :
    s.holdsDelivery =
      s.holds (fun pc => decide (pc = .delivered)) ServicePc.holdsDelivery fun _ => false := by
  funext p
  cases p <;> rfl

theorem waits_eq (s : State n) :
    s.waits = s.holds (fun pc => decide (pc = .atBarrier)) (fun pc => decide (pc = .atBarrier))
      fun pc => decide (pc = .atBarrier) := by
  funext p
  cases p <;> rfl

theorem holds_of_caller {pc : CallerPc} (h : s.caller i = pc) :
    s.holds caller service destroyer (.caller i) = caller pc :=
  congrArg caller h

theorem holds_of_service {pc : ServicePc} (h : s.service = pc) :
    s.holds caller service destroyer .service = service pc :=
  congrArg service h

theorem holds_of_destroyer {pc : DestroyerPc} (h : s.destroyer = pc) :
    s.holds caller service destroyer .destroyer = destroyer pc :=
  congrArg destroyer h

theorem holds_caller {pc : CallerPc} (hc : s'.caller = Function.update s.caller i pc)
    (hs : s'.service = s.service) (hd : s'.destroyer = s.destroyer) (hv : caller pc = v) :
    s'.holds caller service destroyer =
      Function.update (s.holds caller service destroyer) (.caller i) v := by
  funext p
  rcases p with _ | _ | j
  · exact congrArg service hs
  · exact congrArg destroyer hd
  · by_cases hj : j = i
    · rw [hj, Function.update_self, holds, hc, Function.update_self, hv]
    · rw [Function.update_of_ne (by simpa using hj), holds, hc, Function.update_of_ne hj]
      rfl

theorem holds_service (hc : s'.caller = s.caller) (hd : s'.destroyer = s.destroyer)
    (hv : service s'.service = v) :
    s'.holds caller service destroyer =
      Function.update (s.holds caller service destroyer) .service v := by
  funext p
  rcases p with _ | _ | j
  · exact hv
  · exact congrArg destroyer hd
  · exact congrArg (fun f => caller (f j)) hc

theorem holds_destroyer (hc : s'.caller = s.caller) (hs : s'.service = s.service)
    (hv : destroyer s'.destroyer = v) :
    s'.holds caller service destroyer =
      Function.update (s.holds caller service destroyer) .destroyer v := by
  funext p
  rcases p with _ | _ | j
  · exact congrArg service hs
  · exact hv
  · exact congrArg (fun f => caller (f j)) hc

/-- A caller and the service thread leave the barrier. -/
theorem holds_meet {pc : CallerPc} (hc : s'.caller = Function.update s.caller i pc)
    (hd : s'.destroyer = s.destroyer) (hv : caller pc = v) (hw : service s'.service = w) :
    s'.holds caller service destroyer = Function.update
      (Function.update (s.holds caller service destroyer) (.caller i) v) .service w := by
  have hcaller : State.holds caller service destroyer
      { s with caller := Function.update s.caller i pc } =
      Function.update (s.holds caller service destroyer) (.caller i) v :=
    holds_caller rfl rfl rfl hv
  rw [← hcaller]
  exact holds_service hc hd hw

/-- The main thread and the service thread leave the barrier. -/
theorem holds_finish {pc : DestroyerPc} (hc : s'.caller = s.caller) (hp : s'.destroyer = pc)
    (hv : destroyer pc = v) (hw : service s'.service = w) :
    s'.holds caller service destroyer = Function.update
      (Function.update (s.holds caller service destroyer) .destroyer v) .service w := by
  have hdestroyer : State.holds caller service destroyer { s with destroyer := pc } =
      Function.update (s.holds caller service destroyer) .destroyer v :=
    holds_destroyer rfl rfl hv
  rw [← hdestroyer]
  exact holds_service hc hp hw

end Holds

end State

/-- Lock ownership and barrier attendance, read off the program counters. -/
structure Wf (s : State n) : Prop where
  call : s.serviceThrdCallLock.Tracks s.holdsCallLock
  delivery : s.signalDeliveryLock.Tracks s.holdsDelivery
  count : s.signalBarrier.count = 2
  lone : s.signalBarrier.waiting.card ≤ 1
  waits : s.signalBarrier.Attended s.waits

/-- No caller meets the service thread after the flag was raised. -/
structure Quiet (s : State n) : Prop where
  raised : s.killServiceThread = true ↔ s.destroyer ≠ .running
  quiet : s.killServiceThread = true → ∀ i, s.caller i ≠ .atBarrier
  tested : s.service = .summoned → s.killServiceThread = true → s.destroyer = .met
  exited : s.service = .exited → s.destroyer = .met
  last : s.destroyer = .met → s.rendezvous.head? = some {.service, .destroyer}
  final : s.destroyer = .met → s.service = .summoned ∨ s.service = .exited
  passed : ∀ i, s.caller i = .passed →
    s.service = .summoned ∧ s.destroyer = .running ∨ s.service.serving = true
  served : ∀ m, m ∈ s.rendezvous → ∃ p, p ≠ .service ∧ m = {.service, p}

theorem initial_wf (n : Nat) : Wf (initial n) := by
  constructor <;> try rintro (_ | _ | i)
  all_goals simp [initial, State.holdsCallLock, CallerPc.holdsCallLock,
    ServicePc.holdsCallLock, State.holdsDelivery, ServicePc.holdsDelivery, State.waits]

theorem initial_quiet (n : Nat) : Quiet (initial n) := by
  constructor <;> simp [initial]

/-- The outcome of every step of a quiet shutdown. -/
inductive Step (s : State n) : State n → Prop where
  | enter (i) (hpc : s.caller i = .user) :
      Step s { s with caller := Function.update s.caller i .called }
  | lockCall (i) (hpc : s.caller i = .called) (hf : s.serviceThrdCallLock = none) :
      Step s { s with
        caller := Function.update s.caller i .locked
        serviceThrdCallLock := some (.caller i) }
  | skip (i) (hpc : s.caller i = .locked) :
      Step s { s with caller := Function.update s.caller i .leaving }
  | request (i) (hpc : s.caller i = .locked) :
      Step s { s with caller := Function.update s.caller i .arriving, isGcCalled := true }
  | arriveFirst (i) (hpc : s.caller i = .arriving) (hk : s.killServiceThread = false)
      (hw : s.signalBarrier.waiting = ∅) :
      Step s { s with
        caller := Function.update s.caller i .atBarrier
        signalBarrier := { s.signalBarrier with waiting := {.caller i} } }
  | meet (i) (hk : s.killServiceThread = false)
      (hpc : s.caller i = .arriving ∧ s.service = .atBarrier ∨
        s.caller i = .atBarrier ∧ s.service = .ready) :
      Step s { s with
        caller := Function.update s.caller i .passed
        service := .summoned
        signalBarrier := { s.signalBarrier with waiting := ∅ }
        rendezvous := {.service, .caller i} :: s.rendezvous }
  | lockDelivery (i) (hpc : s.caller i = .passed) (hf : s.signalDeliveryLock = none) :
      Step s { s with
        caller := Function.update s.caller i .delivered
        signalDeliveryLock := some (.caller i) }
  | unlockDelivery (i) (hpc : s.caller i = .delivered) :
      Step s { s with
        caller := Function.update s.caller i .leaving, signalDeliveryLock := none }
  | unlockCall (i) (hpc : s.caller i = .leaving) :
      Step s { s with
        caller := Function.update s.caller i .user, serviceThrdCallLock := none }
  | getReady (hpc : s.service = .waiting) (hf : s.signalDeliveryLock = none) :
      Step s { s with service := .ready, signalDeliveryLock := some .service }
  | awaitCall (hpc : s.service = .ready) (hw : s.signalBarrier.waiting = ∅) :
      Step s { s with
        service := .atBarrier
        signalBarrier := { s.signalBarrier with waiting := {.service} } }
  | serve (hpc : s.service = .summoned) (hk : s.killServiceThread = false) :
      Step s { s with service := .exclusive }
  | exit (hpc : s.service = .summoned) (hk : s.killServiceThread = true) :
      Step s { s with service := .exited }
  | deliver (hpc : s.service = .exclusive) :
      Step s { s with service := .collecting, signalDeliveryLock := none }
  | collect (hpc : s.service = .collecting) : Step s { s with service := .swept }
  | lockReset (hpc : s.service = .swept) (hf : s.serviceThrdCallLock = none) :
      Step s { s with service := .resetting, serviceThrdCallLock := some .service }
  | resetFlag (hpc : s.service = .resetting) :
      Step s { s with service := .reset, isGcCalled := false }
  | unlockReset (hpc : s.service = .reset) :
      Step s { s with service := .waiting, serviceThrdCallLock := none }
  | raise (hpc : s.destroyer = .running) (ht : s.service ≠ .summoned)
      (hq : ∀ i, s.caller i ≠ .atBarrier) :
      Step s { s with destroyer := .killing, killServiceThread := true }
  | awaitService (hpc : s.destroyer = .killing) (hw : s.signalBarrier.waiting = ∅) :
      Step s { s with
        destroyer := .atBarrier
        signalBarrier := { s.signalBarrier with waiting := {.destroyer} } }
  | finish (hpc : s.destroyer = .killing ∧ s.service = .atBarrier ∨
        s.destroyer = .atBarrier ∧ s.service = .ready) :
      Step s { s with
        destroyer := .met
        service := .summoned
        signalBarrier := { s.signalBarrier with waiting := ∅ }
        rendezvous := {.service, .destroyer} :: s.rendezvous }

section Preservation

variable {s s' : State n}

theorem Step.call (hs : Step s s') (h : s.serviceThrdCallLock.Tracks s.holdsCallLock) :
    s'.serviceThrdCallLock.Tracks s'.holdsCallLock := by
  rw [State.holdsCallLock_eq] at h ⊢
  cases hs with
  | lockCall i hpc hf => exact h.lock_of hf (State.holds_caller rfl rfl rfl rfl)
  | unlockCall i hpc =>
    exact h.unlock_of (State.holds_of_caller hpc) (State.holds_caller rfl rfl rfl rfl)
  | lockReset hpc hf => exact h.lock_of hf (State.holds_service rfl rfl rfl)
  | unlockReset hpc =>
    exact h.unlock_of (State.holds_of_service hpc) (State.holds_service rfl rfl rfl)
  | meet i hk hpc =>
    -- the caller holds the mutex before and after, and the service thread does not
    have hboth : (s.caller i).holdsCallLock = true ∧ s.service.holdsCallLock = false := by
      rcases hpc with ⟨hi, hs⟩ | ⟨hi, hs⟩
      · rw [hi, hs]
        exact ⟨rfl, rfl⟩
      · rw [hi, hs]
        exact ⟨rfl, rfl⟩
    exact h.keep_both_of (p := .caller i) (q := .service) hboth.1 hboth.2 (by simp)
      (State.holds_meet rfl rfl rfl rfl)
  | finish hpc =>
    have hservice : s.service.holdsCallLock = false := by
      rcases hpc with ⟨-, hs⟩ | ⟨-, hs⟩
      · rw [hs]
        rfl
      · rw [hs]
        rfl
    exact h.keep_both_of (p := .destroyer) (q := .service) rfl hservice (by simp)
      (State.holds_finish rfl rfl rfl rfl)
  | enter i hpc | skip i hpc | request i hpc | arriveFirst i hpc | lockDelivery i hpc
  | unlockDelivery i hpc =>
    exact h.keep_of (State.holds_of_caller hpc) (State.holds_caller rfl rfl rfl rfl)
  | getReady hpc | awaitCall hpc | serve hpc | exit hpc | deliver hpc | collect hpc
  | resetFlag hpc =>
    exact h.keep_of (State.holds_of_service hpc) (State.holds_service rfl rfl rfl)
  | raise hpc | awaitService hpc =>
    exact h.keep_of (State.holds_of_destroyer hpc) (State.holds_destroyer rfl rfl rfl)

theorem Step.delivery (hs : Step s s') (h : s.signalDeliveryLock.Tracks s.holdsDelivery) :
    s'.signalDeliveryLock.Tracks s'.holdsDelivery := by
  rw [State.holdsDelivery_eq] at h ⊢
  cases hs with
  | lockDelivery i hpc hf => exact h.lock_of hf (State.holds_caller rfl rfl rfl rfl)
  | unlockDelivery i hpc =>
    exact h.unlock_of (State.holds_of_caller hpc) (State.holds_caller rfl rfl rfl rfl)
  | getReady hpc hf => exact h.lock_of hf (State.holds_service rfl rfl rfl)
  | deliver hpc =>
    exact h.unlock_of (State.holds_of_service hpc) (State.holds_service rfl rfl rfl)
  | meet i hk hpc =>
    -- the service thread holds the spin lock before and after, and the caller does not
    have hboth : decide (s.caller i = .delivered) = false ∧ s.service.holdsDelivery = true := by
      rcases hpc with ⟨hi, hs⟩ | ⟨hi, hs⟩
      · rw [hi, hs]
        exact ⟨rfl, rfl⟩
      · rw [hi, hs]
        exact ⟨rfl, rfl⟩
    exact h.keep_both_of (p := .caller i) (q := .service) hboth.1 hboth.2 (by simp)
      (State.holds_meet rfl rfl rfl rfl)
  | finish hpc =>
    have hservice : s.service.holdsDelivery = true := by
      rcases hpc with ⟨-, hs⟩ | ⟨-, hs⟩
      · rw [hs]
        rfl
      · rw [hs]
        rfl
    exact h.keep_both_of (p := .destroyer) (q := .service) rfl hservice (by simp)
      (State.holds_finish rfl rfl rfl rfl)
  | enter i hpc | lockCall i hpc | skip i hpc | request i hpc | arriveFirst i hpc
  | unlockCall i hpc =>
    exact h.keep_of (State.holds_of_caller hpc) (State.holds_caller rfl rfl rfl rfl)
  | awaitCall hpc | serve hpc | exit hpc | collect hpc | lockReset hpc | resetFlag hpc
  | unlockReset hpc =>
    exact h.keep_of (State.holds_of_service hpc) (State.holds_service rfl rfl rfl)
  | raise hpc | awaitService hpc =>
    exact h.keep_of (State.holds_of_destroyer hpc) (State.holds_destroyer rfl rfl rfl)

/-- The mutex admits one thread to the rendezvous. -/
theorem caller_unique (h : s.serviceThrdCallLock.Tracks s.holdsCallLock) {i j : Fin n}
    (hi : (s.caller i).holdsCallLock = true) (hj : (s.caller j).holdsCallLock = true) : i = j :=
  Party.caller.inj (h.unique (p := Party.caller i) (q := Party.caller j) hi hj)

theorem Step.waits (hs : Step s s') (lone : s.signalBarrier.waiting.card ≤ 1)
    (h : s.signalBarrier.Attended s.waits) : s'.signalBarrier.Attended s'.waits := by
  rw [State.waits_eq] at h ⊢
  cases hs with
  | arriveFirst i hpc hk hw => exact h.arrive_of hw rfl (State.holds_caller rfl rfl rfl rfl)
  | awaitCall hpc hw => exact h.arrive_of hw rfl (State.holds_service rfl rfl rfl)
  | awaitService hpc hw => exact h.arrive_of hw rfl (State.holds_destroyer rfl rfl rfl)
  | meet i hk hpc =>
    refine h.leave_of (p := .caller i) (q := .service) lone rfl ?_
      (State.holds_meet rfl rfl rfl rfl)
    rcases hpc with ⟨-, hs⟩ | ⟨hi, -⟩
    · exact Or.inr (decide_eq_true hs)
    · exact Or.inl (decide_eq_true hi)
  | finish hpc =>
    refine h.leave_of (p := .destroyer) (q := .service) lone rfl ?_
      (State.holds_finish rfl rfl rfl rfl)
    rcases hpc with ⟨-, hs⟩ | ⟨hd, -⟩
    · exact Or.inr (decide_eq_true hs)
    · exact Or.inl (decide_eq_true hd)
  | enter i hpc | lockCall i hpc | skip i hpc | request i hpc | lockDelivery i hpc
  | unlockDelivery i hpc | unlockCall i hpc =>
    exact h.keep_of (State.holds_of_caller hpc) (State.holds_caller rfl rfl rfl rfl)
  | getReady hpc | serve hpc | exit hpc | deliver hpc | collect hpc | lockReset hpc
  | resetFlag hpc | unlockReset hpc =>
    exact h.keep_of (State.holds_of_service hpc) (State.holds_service rfl rfl rfl)
  | raise hpc =>
    exact h.keep_of (State.holds_of_destroyer hpc) (State.holds_destroyer rfl rfl rfl)

theorem Step.lone (hs : Step s s') (h : s.signalBarrier.waiting.card ≤ 1) :
    s'.signalBarrier.waiting.card ≤ 1 := by
  cases hs <;> simp [h]

theorem Step.count (hs : Step s s') : s'.signalBarrier.count = s.signalBarrier.count := by
  cases hs <;> rfl

theorem Step.wf (hs : Step s s') (h : Wf s) : Wf s' where
  call := hs.call h.call
  delivery := hs.delivery h.delivery
  count := hs.count.trans h.count
  lone := hs.lone h.lone
  waits := hs.waits h.lone h.waits

theorem Quiet.running (h : Quiet s) (hk : s.killServiceThread = false) :
    s.destroyer = .running := by
  by_contra hne
  rw [h.raised.mpr hne] at hk
  cases hk

theorem Quiet.killing (h : Quiet s) {pc : DestroyerPc} (hpc : s.destroyer = pc)
    (hne : pc ≠ .running) : s.killServiceThread = true :=
  h.raised.mpr (hpc ▸ hne)

/-- Outside of the service a caller has not passed the rendezvous. -/
theorem Quiet.not_passed (h : Quiet s) {pc : ServicePc} (hpc : s.service = pc)
    (hs : pc ≠ .summoned) (hv : pc.serving = false) (j : Fin n) : s.caller j ≠ .passed := by
  intro hj
  rcases h.passed j hj with ⟨hsummoned, -⟩ | hserving
  · exact hs (hpc.symm.trans hsummoned)
  · rw [hpc, hv] at hserving
    cases hserving

/-- Once the main thread has met the service thread, that one tests the flag or has ended. -/
theorem Quiet.not_met (h : Quiet s) {pc : ServicePc} (hpc : s.service = pc)
    (hs : pc ≠ .summoned) (he : pc ≠ .exited) : s.destroyer ≠ .met := by
  intro hd
  rcases h.final hd with hsummoned | hexited
  · exact hs (hpc.symm.trans hsummoned)
  · exact he (hpc.symm.trans hexited)

theorem Step.passed (hs : Step s s') (hw : Wf s) (h : Quiet s) (j : Fin n) :
    s'.caller j = .passed →
      s'.service = .summoned ∧ s'.destroyer = .running ∨ s'.service.serving = true := by
  intro hj
  cases hs with
  | enter i | lockCall i | skip i | request i | arriveFirst i | lockDelivery i
  | unlockDelivery i | unlockCall i => exact h.passed j (eq_of_update hj (by simp))
  | meet i hk hpc => exact Or.inl ⟨rfl, h.running hk⟩
  | getReady hpc | awaitCall hpc | resetFlag hpc | unlockReset hpc =>
    exact absurd hj (h.not_passed hpc (by simp) rfl j)
  | serve | deliver | collect => exact Or.inr rfl
  | exit hpc hk =>
    rcases h.passed j hj with ⟨-, hd⟩ | hserving
    · exact absurd hd (h.raised.mp hk)
    · rw [hpc] at hserving
      cases hserving
  | lockReset hpc hf =>
    -- the caller holds the mutex until it has delivered its signal
    have hheld := hw.call.none_holds hf (.caller j)
    rw [State.holdsCallLock, hj] at hheld
    cases hheld
  | raise hpc ht hq =>
    rcases h.passed j hj with ⟨hsummoned, -⟩ | hserving
    · exact absurd hsummoned ht
    · exact Or.inr hserving
  | awaitService hpc hwait =>
    rcases h.passed j hj with ⟨-, hd⟩ | hserving
    · rw [hpc] at hd
      cases hd
    · exact Or.inr hserving
  | finish hpc =>
    rcases hpc with ⟨-, hs⟩ | ⟨-, hs⟩
    · exact absurd hj (h.not_passed hs (by simp) rfl j)
    · exact absurd hj (h.not_passed hs (by simp) rfl j)

theorem Step.served (hs : Step s s') (h : Quiet s) :
    ∀ m, m ∈ s'.rendezvous → ∃ p, p ≠ .service ∧ m = {.service, p} := by
  intro m hm
  cases hs with
  | meet i hk hpc =>
    rcases List.mem_cons.mp hm with rfl | hm
    · exact ⟨.caller i, nofun, rfl⟩
    · exact h.served m hm
  | finish hpc =>
    rcases List.mem_cons.mp hm with rfl | hm
    · exact ⟨.destroyer, nofun, rfl⟩
    · exact h.served m hm
  | _ => exact h.served m hm

theorem Step.raised (hs : Step s s') (h : Quiet s) :
    s'.killServiceThread = true ↔ s'.destroyer ≠ .running := by
  cases hs with
  | raise hpc ht hq => simp
  | awaitService hpc hw => exact iff_of_true (h.killing hpc (by simp)) (by simp)
  | finish hpc =>
    rcases hpc with ⟨hd, -⟩ | ⟨hd, -⟩
    · exact iff_of_true (h.killing hd (by simp)) (by simp)
    · exact iff_of_true (h.killing hd (by simp)) (by simp)
  | _ => exact h.raised

theorem Step.no_wait (hs : Step s s') (h : Quiet s) (hk : s'.killServiceThread = true)
    (j : Fin n) : s'.caller j ≠ .atBarrier := by
  cases hs with
  | enter i | lockCall i | skip i | request i | lockDelivery i | unlockDelivery i
  | unlockCall i => exact fun hj => h.quiet hk j (eq_of_update hj (by simp))
  | arriveFirst i hpc hnot hw => exact absurd hk (by simp [hnot])
  | meet i hnot hpc => exact absurd hk (by simp [hnot])
  | raise hpc ht hq => exact hq j
  | _ => exact h.quiet hk j

theorem Step.tested (hs : Step s s') (h : Quiet s) :
    s'.service = .summoned → s'.killServiceThread = true → s'.destroyer = .met := by
  intro hs' hk
  cases hs with
  | enter i | lockCall i | skip i | request i | arriveFirst i | lockDelivery i
  | unlockDelivery i | unlockCall i => exact h.tested hs' hk
  | meet i hnot hpc => exact absurd hk (by simp [hnot])
  | raise hpc ht hq => exact absurd hs' ht
  | awaitService hpc hw =>
    have hmet := h.tested hs' hk
    rw [hpc] at hmet
    cases hmet
  | finish hpc => rfl
  | _ => cases hs'

theorem Step.exited (hs : Step s s') (h : Quiet s) :
    s'.service = .exited → s'.destroyer = .met := by
  intro hs'
  cases hs with
  | enter i | lockCall i | skip i | request i | arriveFirst i | lockDelivery i
  | unlockDelivery i | unlockCall i => exact h.exited hs'
  | exit hpc hk => exact h.tested hpc hk
  | raise hpc | awaitService hpc =>
    have hmet := h.exited hs'
    rw [hpc] at hmet
    cases hmet
  | _ => cases hs'

theorem Step.last (hs : Step s s') (h : Quiet s) :
    s'.destroyer = .met → s'.rendezvous.head? = some {.service, .destroyer} := by
  intro hd
  cases hs with
  | meet i hk hpc =>
    rw [h.running hk] at hd
    cases hd
  | finish hpc => rfl
  | raise hpc | awaitService hpc => cases hd
  | _ => exact h.last hd

theorem Step.final (hs : Step s s') (h : Quiet s) :
    s'.destroyer = .met → s'.service = .summoned ∨ s'.service = .exited := by
  intro hd
  cases hs with
  | enter i | lockCall i | skip i | request i | arriveFirst i | lockDelivery i
  | unlockDelivery i | unlockCall i => exact h.final hd
  | meet i hk hpc => exact Or.inl rfl
  | getReady hpc | awaitCall hpc | deliver hpc | collect hpc | lockReset hpc | resetFlag hpc
  | unlockReset hpc => exact absurd hd (h.not_met hpc (by simp) (by simp))
  | serve hpc hk =>
    rw [h.running hk] at hd
    cases hd
  | exit hpc hk => exact Or.inr rfl
  | finish hpc => exact Or.inl rfl
  | raise hpc | awaitService hpc => cases hd

theorem Step.quiet (hs : Step s s') (hw : Wf s) (h : Quiet s) : Quiet s' where
  raised := hs.raised h
  quiet := fun hk j => hs.no_wait h hk j
  tested := hs.tested h
  exited := hs.exited h
  last := hs.last h
  final := hs.final h
  passed := hs.passed hw h
  served := hs.served h

end Preservation

/-- The first party waits. -/
theorem barrierWait_first {s : State n} (size : s.signalBarrier.count = 2)
    (hw : s.signalBarrier.waiting = ∅) (p : Party n) :
    barrierWait s p = { s with
      caller := fun i => if p = .caller i then .atBarrier else s.caller i
      service := if p = .service then .atBarrier else s.service
      destroyer := if p = .destroyer then .atBarrier else s.destroyer
      signalBarrier := { s.signalBarrier with waiting := {p} } } := by
  simp [barrierWait, Barrier.arrive_first size hw]

theorem ite_of_met {α : Type} {p q r : Party n} {x y z : α} :
    (if r = p ∨ r = q then x else if p = r then y else z) = if r = p ∨ r = q then x else z :=
  ite_congr rfl (fun _ => rfl) fun hnot => if_neg fun hpr => hnot (Or.inl hpr.symm)

/-- The second party lets both go. -/
theorem barrierWait_second {s : State n} (p : Party n) {q : Party n}
    (size : s.signalBarrier.count = 2) (hw : s.signalBarrier.waiting = {q}) (hne : p ≠ q) :
    barrierWait s p = { s with
      caller := fun i => if .caller i = p ∨ .caller i = q then .passed else s.caller i
      service := if .service = p ∨ .service = q then .summoned else s.service
      destroyer := if .destroyer = p ∨ .destroyer = q then .met else s.destroyer
      signalBarrier := { s.signalBarrier with waiting := ∅ }
      rendezvous := {p, q} :: s.rendezvous } := by
  simp only [barrierWait, Barrier.arrive_second size hw hne, Finset.mem_insert,
    Finset.mem_singleton, Finset.insert_ne_empty, if_false, ite_of_met]

theorem caller_arrives {s : State n} (h : Wf s) (hq : Quiet s) {i : Fin n}
    (hpc : s.caller i = .arriving) (hk : s.killServiceThread = false) :
    Step s (barrierWait s (.caller i)) := by
  rcases h.waits.cases h.lone with hw | ⟨p, hw, hp⟩
  · rw [barrierWait_first h.count hw]
    convert Step.arriveFirst i hpc hk hw using 1
    refine State.ext (funext fun k => ?_) rfl rfl rfl rfl rfl rfl rfl rfl
    refine Eq.trans ?_ (Function.update_apply s.caller i .atBarrier k).symm
    exact if_congr (by simp [eq_comm]) rfl rfl
  · cases p with
    | service =>
      have hs : s.service = .atBarrier := of_decide_eq_true hp
      rw [barrierWait_second (.caller i) h.count hw nofun, Finset.pair_comm]
      convert Step.meet i hk (Or.inl ⟨hpc, hs⟩) using 1
      refine State.ext (funext fun k => ?_) rfl rfl rfl rfl rfl rfl rfl rfl
      refine Eq.trans ?_ (Function.update_apply s.caller i .passed k).symm
      exact if_congr (by simp) rfl rfl
    | destroyer =>
      have hd : s.destroyer = .atBarrier := of_decide_eq_true hp
      have hraised := hq.raised.mpr (by rw [hd]; nofun)
      rw [hk] at hraised
      cases hraised
    | caller j =>
      have hj : s.caller j = .atBarrier := of_decide_eq_true hp
      have hij := caller_unique h.call (i := i) (j := j) (by rw [hpc]; rfl) (by rw [hj]; rfl)
      rw [hij, hj] at hpc
      cases hpc

theorem service_arrives {s : State n} (h : Wf s) (hq : Quiet s) (hpc : s.service = .ready) :
    Step s (barrierWait s .service) := by
  rcases h.waits.cases h.lone with hw | ⟨p, hw, hp⟩
  · rw [barrierWait_first h.count hw]
    exact Step.awaitCall hpc hw
  · cases p with
    | service =>
      have hs : s.service = .atBarrier := of_decide_eq_true hp
      rw [hpc] at hs
      cases hs
    | destroyer =>
      have hd : s.destroyer = .atBarrier := of_decide_eq_true hp
      rw [barrierWait_second .service h.count hw nofun]
      exact Step.finish (Or.inr ⟨hd, hpc⟩)
    | caller j =>
      have hj : s.caller j = .atBarrier := of_decide_eq_true hp
      have hk : s.killServiceThread = false :=
        Bool.eq_false_of_not_eq_true fun hk => hq.quiet hk j hj
      rw [barrierWait_second .service h.count hw nofun]
      convert Step.meet j hk (Or.inr ⟨hj, hpc⟩) using 1
      refine State.ext (funext fun k => ?_) rfl rfl rfl rfl rfl rfl rfl rfl
      refine Eq.trans ?_ (Function.update_apply s.caller j .passed k).symm
      exact if_congr (by simp) rfl rfl

theorem destroyer_arrives {s : State n} (h : Wf s) (hq : Quiet s) (hpc : s.destroyer = .killing) :
    Step s (barrierWait s .destroyer) := by
  rcases h.waits.cases h.lone with hw | ⟨p, hw, hp⟩
  · rw [barrierWait_first h.count hw]
    exact Step.awaitService hpc hw
  · cases p with
    | service =>
      have hs : s.service = .atBarrier := of_decide_eq_true hp
      rw [barrierWait_second .destroyer h.count hw nofun, Finset.pair_comm]
      exact Step.finish (Or.inl ⟨hpc, hs⟩)
    | destroyer =>
      have hd : s.destroyer = .atBarrier := of_decide_eq_true hp
      rw [hpc] at hd
      cases hd
    | caller j =>
      have hj : s.caller j = .atBarrier := of_decide_eq_true hp
      exact absurd hj (hq.quiet (hq.raised.mpr (by rw [hpc]; nofun)) j)

theorem step_outcome {s s' : State n} {a : Action n} (h : Wf s) (hq : Quiet s)
    (hok : QuietShutdown s a) (hs : step s a = some s') : Step s s' := by
  cases a with
  | caller i =>
    simp only [step, callerStep, setCaller] at hs
    cases hpc : s.caller i <;> simp only [hpc] at hs
    case called =>
      split at hs <;> cases hs
      exact .lockCall i hpc ‹_›
    case locked =>
      split at hs <;> cases hs
      · exact .skip i hpc
      · exact .request i hpc
    case arriving =>
      cases hs
      exact caller_arrives h hq hpc (hok hpc)
    case passed =>
      split at hs <;> cases hs
      exact .lockDelivery i hpc ‹_›
    all_goals cases hs
    · exact .enter i hpc
    · exact .unlockDelivery i hpc
    · exact .unlockCall i hpc
  | service =>
    simp only [step, serviceStep] at hs
    cases hpc : s.service <;> simp only [hpc] at hs
    case waiting =>
      split at hs <;> cases hs
      exact .getReady hpc ‹_›
    case ready =>
      cases hs
      exact service_arrives h hq hpc
    case summoned =>
      by_cases hk : s.killServiceThread = true
      · rw [if_pos hk] at hs
        cases hs
        exact .exit hpc hk
      · rw [if_neg hk] at hs
        cases hs
        exact .serve hpc (Bool.eq_false_of_not_eq_true hk)
    case swept =>
      split at hs <;> cases hs
      exact .lockReset hpc ‹_›
    all_goals cases hs
    · exact .deliver hpc
    · exact .collect hpc
    · exact .resetFlag hpc
    · exact .unlockReset hpc
  | destroyer =>
    simp only [step, destroyerStep] at hs
    cases hpc : s.destroyer <;> simp only [hpc] at hs
    case running =>
      cases hs
      exact .raise hpc (hok hpc).1 (hok hpc).2
    case killing =>
      cases hs
      exact destroyer_arrives h hq hpc
    all_goals cases hs

theorem reachable_quiet {s : State n}
    (h : Transition.Reachable (· = initial n) step QuietShutdown s) : Wf s ∧ Quiet s :=
  h.invariant (P := fun s => Wf s ∧ Quiet s)
    (fun _ hi => hi ▸ ⟨initial_wf n, initial_quiet n⟩) fun _ _ _ ⟨hw, hq⟩ hok hs =>
      ⟨(step_outcome hw hq hok hs).wf hw, (step_outcome hw hq hok hs).quiet hw hq⟩

/-- A thread outside `call_service_thread` can call it. -/
def callerPc : ServiceThread.CallerPc → CallerPc
  | .user | .first | .retrying | .second => .user
  | .called => .called
  | .locked => .locked
  | .arriving => .arriving
  | .atBarrier => .atBarrier
  | .passed => .passed
  | .delivered => .delivered
  | .leaving => .leaving

def servicePc : ServiceThread.ServicePc → ServicePc
  | .waiting | .releasing => .waiting
  | .ready => .ready
  | .atBarrier => .atBarrier
  | .summoned => .summoned
  | .exclusive => .exclusive
  | .stopping | .collecting => .collecting
  | .swept => .swept
  | .resetting => .resetting
  | .reset => .reset

def party : ServiceThread.Party n → Party n
  | none => .service
  | some i => .caller i

/-- The requests as those of a program that has not begun to shut down, after the rendezvous
`met`. -/
def ofRequests (s : ServiceThread.State n) (met : List (Finset (Party n))) : State n where
  caller := callerPc ∘ s.thread
  service := servicePc s.service
  destroyer := .running
  serviceThrdCallLock := s.serviceThrdCallLock.map party
  signalDeliveryLock := s.signalDeliveryLock.map party
  signalBarrier := ⟨s.signalBarrier.count, s.signalBarrier.waiting.image party⟩
  isGcCalled := s.isGcCalled
  killServiceThread := false
  rendezvous := met

section Requests

variable {s s' : ServiceThread.State n} {met : List (Finset (Party n))}

theorem callerPc_update (f : Fin n → ServiceThread.CallerPc) (i : Fin n)
    (pc : ServiceThread.CallerPc) (k : Fin n) :
    callerPc (Function.update f i pc k) = if k = i then callerPc pc else callerPc (f k) := by
  rw [Function.update_apply, apply_ite callerPc]

theorem arrive_ofRequests (hw : ServiceThread.Wf s) (hwait : s.signalBarrier.waiting = ∅)
    (p : Party n) :
    barrierWait (ofRequests s met) p = { ofRequests s met with
      caller := fun i => if p = .caller i then .atBarrier else callerPc (s.thread i)
      service := if p = .service then .atBarrier else servicePc s.service
      destroyer := if p = .destroyer then .atBarrier else .running
      signalBarrier := ⟨s.signalBarrier.count, {p}⟩ } := by
  have hempty : (ofRequests s met).signalBarrier.waiting = ∅ := by
    rw [ofRequests, hwait, Finset.image_empty]
  rw [barrierWait_first hw.count hempty]
  rfl

theorem meet_ofRequests (hw : ServiceThread.Wf s) {p : Party n} {q : ServiceThread.Party n}
    (hwait : s.waits q = true) (hne : p ≠ party q) :
    barrierWait (ofRequests s met) p = { ofRequests s met with
      caller := fun i => if .caller i = p ∨ .caller i = party q then .passed
        else callerPc (s.thread i)
      service := if .service = p ∨ .service = party q then .summoned else servicePc s.service
      destroyer := if .destroyer = p ∨ .destroyer = party q then .met else .running
      signalBarrier := ⟨s.signalBarrier.count, ∅⟩
      rendezvous := {p, party q} :: met } := by
  have hsingle : (ofRequests s met).signalBarrier.waiting = {party q} := by
    rw [ofRequests, hw.waits.eq_singleton hw.lone hwait, Finset.image_singleton]
  rw [barrierWait_second p hw.count hsingle hne]
  rfl

/-- A step of the requests is a step here or none. -/
theorem request_simulates (hw : ServiceThread.Wf s) (hs : ServiceThread.Step s s') :
    ofRequests s' met = ofRequests s met ∨ ∃ a met', QuietShutdown (ofRequests s met) a ∧
      step (ofRequests s met) a = some (ofRequests s' met') := by
  cases hs with
  | rdlock i hpc | succeed i hpc | retry i hpc | finish i hpc =>
    left
    ext1
    · rw [ofRequests, ofRequests, Function.comp_update]
      exact Function.update_eq_self_iff.mpr (by rw [Function.comp_apply, hpc]; rfl)
    all_goals rfl
  | fail i hpc | unlockDelivery i hpc | unlockCall i hpc =>
    refine Or.inr ⟨.caller i, met, fun _ => rfl, ?_⟩
    simp [step, callerStep, setCaller, ofRequests, Function.comp_update, hpc, callerPc]
  | lockCall i hpc hf | skip i hpc hf | request i hpc hf | lockDelivery i hpc hf =>
    refine Or.inr ⟨.caller i, met, fun _ => rfl, ?_⟩
    simp [step, callerStep, setCaller, ofRequests, Function.comp_update, hpc, hf, callerPc, party]
  | mark hpc | wrunlock hpc =>
    left
    ext1
    · rfl
    · exact (congrArg servicePc hpc).symm
    all_goals rfl
  | wrlock hpc | deliver hpc | sweep hpc | resetFlag hpc | unlockReset hpc =>
    refine Or.inr ⟨.service, met, trivial, ?_⟩
    simp [step, serviceStep, ofRequests, hpc, servicePc]
  | getReady hpc hf | lockReset hpc hf =>
    refine Or.inr ⟨.service, met, trivial, ?_⟩
    simp [step, serviceStep, ofRequests, hpc, hf, servicePc, party]
  | arriveFirst i hpc hwait =>
    refine Or.inr ⟨.caller i, met, fun _ => rfl, ?_⟩
    have hcaller : (ofRequests s met).caller i = .arriving := congrArg callerPc hpc
    simp only [step, callerStep, hcaller, arrive_ofRequests hw hwait]
    refine congrArg some (State.ext (funext fun k => ?_) rfl rfl rfl rfl rfl rfl rfl rfl)
    refine Eq.trans ?_ (callerPc_update s.thread i .atBarrier k).symm
    exact if_congr (by simp [eq_comm]) rfl rfl
  | awaitCall hpc hwait =>
    refine Or.inr ⟨.service, met, trivial, ?_⟩
    have hservice : (ofRequests s met).service = .ready := congrArg servicePc hpc
    simp only [step, serviceStep, hservice, arrive_ofRequests hw hwait]
    exact congrArg some (State.ext rfl rfl rfl rfl rfl rfl rfl rfl rfl)
  | meet i hpc =>
    rcases hpc with ⟨hi, hs⟩ | ⟨hi, hs⟩
    · refine Or.inr ⟨.caller i, {.caller i, .service} :: met, fun _ => rfl, ?_⟩
      have hcaller : (ofRequests s met).caller i = .arriving := congrArg callerPc hi
      simp only [step, callerStep, hcaller,
        meet_ofRequests hw (q := none) (decide_eq_true hs) (by simp [party] : .caller i ≠ _)]
      refine congrArg some (State.ext (funext fun k => ?_) rfl rfl rfl rfl rfl rfl rfl rfl)
      refine Eq.trans ?_ (callerPc_update s.thread i .passed k).symm
      exact if_congr (by simp [party]) rfl rfl
    · refine Or.inr ⟨.service, {.service, .caller i} :: met, trivial, ?_⟩
      have hservice : (ofRequests s met).service = .ready := congrArg servicePc hs
      simp only [step, serviceStep, hservice,
        meet_ofRequests hw (q := some i) (decide_eq_true hi) (by simp [party] : .service ≠ _)]
      refine congrArg some (State.ext (funext fun k => ?_) rfl rfl rfl rfl rfl rfl rfl rfl)
      refine Eq.trans ?_ (callerPc_update s.thread i .passed k).symm
      exact if_congr (by simp [party]) rfl rfl

theorem reachable_ofRequests (h : ServiceThread.Reachable n s) :
    ∃ met, Transition.Reachable (· = initial n) step QuietShutdown (ofRequests s met) := by
  induction h with
  | init hi => exact ⟨[], .init (by subst hi; rfl)⟩
  | step a hr hok hs ih =>
    obtain ⟨met, hmet⟩ := ih
    have hw := ServiceThread.reachable_wf hr
    rcases request_simulates hw (ServiceThread.step_outcome hw hs) with he | ⟨a, met', hq, hstep⟩
    · exact ⟨met, he ▸ hmet⟩
    · exact ⟨met', .step a hmet hq hstep⟩

end Requests

/-- Every rendezvous has the service thread as one of its two parties. -/
def Served (s : State n) : Prop :=
  ∀ m, m ∈ s.rendezvous → ∃ p, p ≠ .service ∧ m = {.service, p}

/-- A caller that has met the service thread does not wait for a lock of a thread that ended. -/
def Released (s : State n) : Prop :=
  ∀ i, s.caller i = .passed → ¬(s.signalDeliveryLock = some .service ∧ s.service = .exited)

/-- The service thread ends after a rendezvous with `__destroy_mt_safety`. -/
def EndsWithDestroyer (s : State n) : Prop :=
  s.service = .exited → s.rendezvous.head? = some {.service, .destroyer}

theorem shutdown_rendezvous {s : State n}
    (h : Transition.Reachable (· = initial n) step QuietShutdown s) :
    Served s ∧ Released s ∧ EndsWithDestroyer s := by
  obtain ⟨hw, hq⟩ := reachable_quiet h
  refine ⟨hq.served, ?_, fun hexit => hq.last (hq.exited hexit)⟩
  rintro i hpc ⟨-, hexit⟩
  rcases hq.passed i hpc with ⟨hsummoned, -⟩ | hserving
  · exact nomatch hexit.symm.trans hsummoned
  · rw [hexit] at hserving
    cases hserving

/-- A thread has its request served. -/
def serveRequest (i : Fin 1) : List (Action 1) :=
  List.replicate 4 (.caller i) ++ List.replicate 4 .service ++ List.replicate 3 (.caller i) ++
    List.replicate 4 .service

theorem shutdown_rendezvous_after_request :
    ∃ s : State 1, s.service = .exited ∧ s.rendezvous.length = 2 ∧ Served s ∧ Released s ∧
      EndsWithDestroyer s := by
  obtain ⟨s, hr, hs, hlen⟩ := Transition.reachable_of_run (initial 1)
    (serveRequest 0 ++ List.replicate 2 .destroyer ++ List.replicate 3 .service)
    (fun s => s.service = .exited ∧ s.rendezvous.length = 2) step QuietShutdown
    (by decide +kernel)
  exact ⟨s, hs, hlen, shutdown_rendezvous hr⟩

/-- The main thread meets a caller that waits for the service thread. -/
def destroyerMeetsCaller (i : Fin 1) : List (Action 1) :=
  List.replicate 4 (.caller i) ++ List.replicate 2 .destroyer

/-- The service thread meets a caller after the flag was raised, and ends. -/
def callerMeetsLast (i : Fin 1) : List (Action 1) :=
  List.replicate 4 (.caller i) ++ .destroyer :: List.replicate 3 .service

theorem race_with_shutdown :
    ¬(∀ s : State 1, Transition.Reachable (· = initial 1) step Transition.anyStep s → Served s) ∧
    ¬(∀ s : State 1, Transition.Reachable (· = initial 1) step Transition.anyStep s →
      Released s) ∧
    ¬∀ s : State 1, Transition.Reachable (· = initial 1) step Transition.anyStep s →
      EndsWithDestroyer s := by
  obtain ⟨s, hr, m, hm, hout⟩ := Transition.reachable_of_run (initial 1)
    (destroyerMeetsCaller 0)
    (fun s => ∃ m, m ∈ s.rendezvous ∧ .service ∉ m) step Transition.anyStep (by decide +kernel)
  obtain ⟨t, ht, hpc, hlock, hexit, hlast⟩ := Transition.reachable_of_run (initial 1)
    (callerMeetsLast 0)
    (fun s => s.caller 0 = .passed ∧ s.signalDeliveryLock = some .service ∧
      s.service = .exited ∧ s.rendezvous.head? = some {.service, .caller 0})
    step Transition.anyStep (by decide +kernel)
  refine ⟨fun h => ?_, fun h => h t ht 0 hpc ⟨hlock, hexit⟩, fun h => ?_⟩
  · obtain ⟨p, -, rfl⟩ := h s hr m hm
    simp at hout
  · have hends := h t ht hexit
    rw [hlast] at hends
    exact absurd hends (by decide)

end GarbageCollector.Shutdown
