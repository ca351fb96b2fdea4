import GarbageCollector.Sync
import GarbageCollector.Transition
import Mathlib.Data.Fintype.Option
import Mathlib.Data.Fin.Basic
import Mathlib.Tactic

/-!
# Requests to the service thread

`gc_malloc` with its two attempts, `call_service_thread` and the loop of
`service_thread_routine`, for any number of calling threads and without shutdown. A step is
one operation on a lock, a barrier or the flag. The outcome of an allocation attempt is
chosen freely. Stopping and restarting the world is left out: it only keeps threads from
taking steps.
-/

namespace GarbageCollector.ServiceThread

open Sync

/-- Where a thread is in `gc_malloc`. -/
inductive CallerPc where
  | user
  | first
  | called
  | locked
  | arriving
  | atBarrier
  | passed
  | delivered
  | leaving
  | retrying
  | second
  deriving DecidableEq, Repr

/-- Where the service thread is in its loop. `collecting` lasts from the start of `mark`
to the end of `sweep`. -/
inductive ServicePc where
  | waiting
  | ready
  | atBarrier
  | summoned
  | exclusive
  | stopping
  | collecting
  | swept
  | resetting
  | reset
  | releasing
  deriving DecidableEq, Repr

/-- What has happened since the thread's failed attempt released the allocation lock. -/
inductive Progress where
  | nothing
  | begun
  | ended
  deriving DecidableEq, Repr

/-- `none` is the service thread, `some i` a calling thread. -/
abbrev Party (n : Nat) := Option (Fin n)

@[ext]
structure State (n : Nat) where
  thread : Fin n → CallerPc
  service : ServicePc
  serviceThrdCallLock : Mutex (Party n)
  signalDeliveryLock : Mutex (Party n)
  allocationLock : RwLock (Party n)
  signalBarrier : Barrier (Party n)
  isGcCalled : Bool
  progress : Fin n → Progress

def initial (n : Nat) : State n where
  thread := fun _ => .user
  service := .waiting
  serviceThrdCallLock := none
  signalDeliveryLock := none
  allocationLock := .free
  signalBarrier := ⟨2, ∅⟩
  isGcCalled := false
  progress := fun _ => .nothing

inductive Action (n : Nat) where
  /-- A step of thread `i`; `ok` is the outcome when an allocation attempt ends. -/
  | thread (i : Fin n) (ok : Bool)
  | service
  deriving DecidableEq, Repr

variable {n : Nat}

def setThread (s : State n) (i : Fin n) (pc : CallerPc) : State n :=
  { s with thread := Function.update s.thread i pc }

/-- `pthread_barrier_wait(&signal_barrier)` called by `p`. -/
def barrierWait (s : State n) (p : Party n) : State n :=
  let opened := (s.signalBarrier.arrive p).2
  { s with
    signalBarrier := (s.signalBarrier.arrive p).1
    thread := fun i => if some i ∈ opened then .passed
      else if p = some i then .atBarrier else s.thread i
    service := if none ∈ opened then .summoned
      else if p = none then .atBarrier else s.service }

/-- `gc_malloc` and, inside it, `call_service_thread`. -/
def threadStep (s : State n) (i : Fin n) (ok : Bool) : Option (State n) :=
  match s.thread i with
  | .user =>
    (s.allocationLock.rdlock (some i)).map fun l =>
      { setThread s i .first with allocationLock := l }
  | .first =>
    let s' := { s with allocationLock := s.allocationLock.rdunlock (some i) }
    if ok = true then some (setThread s' i .user)
    else some { setThread s' i .called with progress := Function.update s.progress i .nothing }
  | .called =>
    if s.serviceThrdCallLock = none then
      some { setThread s i .locked with serviceThrdCallLock := some (some i) }
    else none
  | .locked =>
    if s.isGcCalled = true then some (setThread s i .leaving)
    else some { setThread s i .arriving with isGcCalled := true }
  | .arriving => some (barrierWait s (some i))
  | .atBarrier => none
  | .passed =>
    if s.signalDeliveryLock = none then
      some { setThread s i .delivered with signalDeliveryLock := some (some i) }
    else none
  | .delivered => some { setThread s i .leaving with signalDeliveryLock := none }
  | .leaving => some { setThread s i .retrying with serviceThrdCallLock := none }
  | .retrying =>
    (s.allocationLock.rdlock (some i)).map fun l =>
      { setThread s i .second with allocationLock := l }
  | .second =>
    some { setThread s i .user with allocationLock := s.allocationLock.rdunlock (some i) }

/-- The loop of `service_thread_routine`. -/
def serviceStep (s : State n) : Option (State n) :=
  match s.service with
  | .waiting =>
    if s.signalDeliveryLock = none then
      some { s with service := .ready, signalDeliveryLock := some none }
    else none
  | .ready => some (barrierWait s none)
  | .atBarrier => none
  | .summoned =>
    (s.allocationLock.wrlock none).map fun l =>
      { s with service := .exclusive, allocationLock := l }
  | .exclusive => some { s with service := .stopping, signalDeliveryLock := none }
  | .stopping =>
    some { s with
      service := .collecting
      progress := fun i => if s.progress i = .nothing then .begun else s.progress i }
  | .collecting =>
    some { s with
      service := .swept
      progress := fun i => if s.progress i = .begun then .ended else s.progress i }
  | .swept =>
    if s.serviceThrdCallLock = none then
      some { s with service := .resetting, serviceThrdCallLock := some none }
    else none
  | .resetting => some { s with service := .reset, isGcCalled := false }
  | .reset => some { s with service := .releasing, serviceThrdCallLock := none }
  | .releasing =>
    some { s with service := .waiting, allocationLock := s.allocationLock.wrunlock }

def step (s : State n) : Action n → Option (State n)
  | .thread i ok => threadStep s i ok
  | .service => serviceStep s

abbrev Reachable (n : Nat) : State n → Prop :=
  Transition.Reachable (· = initial n) step Transition.anyStep

def CallerPc.holdsCallLock : CallerPc → Bool
  | .locked | .arriving | .atBarrier | .passed | .delivered | .leaving => true
  | _ => false

def CallerPc.reads : CallerPc → Bool
  | .first | .second => true
  | _ => false

def ServicePc.holdsCallLock : ServicePc → Bool
  | .resetting | .reset => true
  | _ => false

def ServicePc.holdsDelivery : ServicePc → Bool
  | .ready | .atBarrier | .summoned | .exclusive => true
  | _ => false

def ServicePc.writes : ServicePc → Bool
  | .exclusive | .stopping | .collecting | .swept | .resetting | .reset | .releasing => true
  | _ => false

/-- The signal is delivered and the collection not yet reported as over. -/
def ServicePc.busy : ServicePc → Bool
  | .stopping | .collecting | .swept => true
  | _ => false

/-- Between raising the flag and knowing that the signal was delivered. -/
def CallerPc.calling : CallerPc → Bool
  | .arriving | .atBarrier | .passed | .delivered => true
  | _ => false

/-- The collection is over and the allocation lock still held. -/
def ServicePc.after : ServicePc → Bool
  | .swept | .resetting | .reset | .releasing => true
  | _ => false

namespace State

def holdsCallLock (s : State n) : Party n → Bool
  | none => s.service.holdsCallLock
  | some i => (s.thread i).holdsCallLock

def holdsDelivery (s : State n) : Party n → Bool
  | none => s.service.holdsDelivery
  | some i => s.thread i = .delivered

def waits (s : State n) : Party n → Bool
  | none => s.service = .atBarrier
  | some i => s.thread i = .atBarrier

/-- What the program counters say of each party. -/
def holds (caller : CallerPc → Bool) (service : ServicePc → Bool) (s : State n) :
    Party n → Bool
  | none => service s.service
  | some i => caller (s.thread i)

section Holds

variable {caller : CallerPc → Bool} {service : ServicePc → Bool} {s s' : State n} {i : Fin n}
  {pc : CallerPc} {v : Bool}

theorem holdsCallLock_eq (s : State n) :
    s.holdsCallLock = s.holds CallerPc.holdsCallLock ServicePc.holdsCallLock := by
  funext p
  cases p <;> rfl

theorem holdsDelivery_eq (s : State n) :
    s.holdsDelivery = s.holds (fun pc => decide (pc = .delivered)) ServicePc.holdsDelivery := by
  funext p
  cases p <;> rfl

theorem waits_eq (s : State n) :
    s.waits = s.holds (fun pc => decide (pc = .atBarrier)) fun pc => decide (pc = .atBarrier) := by
  funext p
  cases p <;> rfl

theorem holds_some (h : s.thread i = pc) : s.holds caller service (some i) = caller pc :=
  congrArg caller h

theorem holds_none {pc : ServicePc} (h : s.service = pc) :
    s.holds caller service none = service pc :=
  congrArg service h

theorem holds_thread (ht : s'.thread = Function.update s.thread i pc)
    (hs : s'.service = s.service) (hv : caller pc = v) :
    s'.holds caller service = Function.update (s.holds caller service) (some i) v := by
  funext p
  rcases p with _ | j
  · rw [Function.update_of_ne (Option.some_ne_none i).symm]
    exact congrArg service hs
  · by_cases hj : j = i
    · rw [hj, Function.update_self, holds, ht, Function.update_self, hv]
    · rw [Function.update_of_ne (by simpa using hj), holds, ht, Function.update_of_ne hj]
      rfl

theorem holds_service (ht : s'.thread = s.thread) (hv : service s'.service = v) :
    s'.holds caller service = Function.update (s.holds caller service) none v := by
  funext p
  rcases p with _ | j
  · rw [Function.update_self]
    exact hv
  · rw [Function.update_of_ne (Option.some_ne_none j), holds, ht]
    rfl

/-- The thread and the service thread leave the barrier. -/
theorem holds_meet (ht : s'.thread = Function.update s.thread i pc) {w : Bool}
    (hv : caller pc = v) (hw : service s'.service = w) :
    s'.holds caller service =
      Function.update (Function.update (s.holds caller service) (some i) v) none w := by
  have hthread : State.holds caller service { s with thread := Function.update s.thread i pc } =
      Function.update (s.holds caller service) (some i) v := holds_thread rfl rfl hv
  rw [← hthread]
  exact holds_service ht hw

end Holds

end State

/-- Lock ownership and barrier attendance, read off the program counters. -/
structure Wf (s : State n) : Prop where
  call : s.serviceThrdCallLock.Tracks s.holdsCallLock
  delivery : s.signalDeliveryLock.Tracks s.holdsDelivery
  readers : ∀ i, some i ∈ s.allocationLock.readers ↔ (s.thread i).reads = true
  writer : s.allocationLock.writer = none ↔ s.service.writes = false
  exclusive : s.service.writes = true → s.allocationLock.readers = ∅
  count : s.signalBarrier.count = 2
  lone : s.signalBarrier.waiting.card ≤ 1
  waits : s.signalBarrier.Attended s.waits

/-- The mutex admits one thread to the rendezvous. -/
theorem Wf.caller_unique {s : State n} (h : Wf s) {i j : Fin n}
    (hi : (s.thread i).holdsCallLock = true) (hj : (s.thread j).holdsCallLock = true) : i = j :=
  Option.some.inj (h.call.unique (p := some i) (q := some j) hi hj)

theorem CallerPc.holdsCallLock_of_calling {pc : CallerPc} (h : pc.calling = true) :
    pc.holdsCallLock = true := by
  cases pc <;> simp_all [CallerPc.calling, CallerPc.holdsCallLock]

theorem Progress.ends (p : Progress) (h : p ≠ .nothing) :
    (if p = .begun then Progress.ended else p) = .ended := by
  cases p with
  | nothing => exact absurd rfl h
  | begun => rfl
  | ended => rfl

theorem ServicePc.writes_of_after {pc : ServicePc} (h : pc.after = true) : pc.writes = true := by
  cases pc <;> simp_all [ServicePc.after, ServicePc.writes]

theorem Wf.service_excluded {s : State n} (h : Wf s) {i : Fin n}
    (hi : (s.thread i).holdsCallLock = true) : s.service.holdsCallLock = false := by
  by_contra hne
  have := h.call.unique (p := some i) (q := none) hi (by simpa [State.holdsCallLock] using hne)
  cases this

theorem initial_wf (n : Nat) : Wf (initial n) := by
  constructor <;> try rintro (_ | i)
  all_goals simp [initial, RwLock.free, State.holdsCallLock, CallerPc.holdsCallLock,
    CallerPc.reads, ServicePc.holdsCallLock, State.holdsDelivery, ServicePc.holdsDelivery,
    ServicePc.writes, State.waits]

/-- The outcome of every step, once the barrier is known to have two parties. -/
inductive Step (s : State n) : State n → Prop where
  | rdlock (i) (hpc : s.thread i = .user) (hw : s.allocationLock.writer = none) :
      Step s { s with
        thread := Function.update s.thread i .first
        allocationLock := { s.allocationLock with
          readers := insert (some i) s.allocationLock.readers } }
  | succeed (i) (hpc : s.thread i = .first) :
      Step s { s with
        thread := Function.update s.thread i .user
        allocationLock := s.allocationLock.rdunlock (some i) }
  | fail (i) (hpc : s.thread i = .first) :
      Step s { s with
        thread := Function.update s.thread i .called
        allocationLock := s.allocationLock.rdunlock (some i)
        progress := Function.update s.progress i .nothing }
  | lockCall (i) (hpc : s.thread i = .called) (hf : s.serviceThrdCallLock = none) :
      Step s { s with
        thread := Function.update s.thread i .locked
        serviceThrdCallLock := some (some i) }
  | skip (i) (hpc : s.thread i = .locked) (hf : s.isGcCalled = true) :
      Step s { s with thread := Function.update s.thread i .leaving }
  | request (i) (hpc : s.thread i = .locked) (hf : s.isGcCalled = false) :
      Step s { s with thread := Function.update s.thread i .arriving, isGcCalled := true }
  | arriveFirst (i) (hpc : s.thread i = .arriving) (hw : s.signalBarrier.waiting = ∅) :
      Step s { s with
        thread := Function.update s.thread i .atBarrier
        signalBarrier := { s.signalBarrier with waiting := {some i} } }
  | meet (i) (hpc : s.thread i = .arriving ∧ s.service = .atBarrier ∨
        s.thread i = .atBarrier ∧ s.service = .ready) :
      Step s { s with
        thread := Function.update s.thread i .passed
        service := .summoned
        signalBarrier := { s.signalBarrier with waiting := ∅ } }
  | lockDelivery (i) (hpc : s.thread i = .passed) (hf : s.signalDeliveryLock = none) :
      Step s { s with
        thread := Function.update s.thread i .delivered
        signalDeliveryLock := some (some i) }
  | unlockDelivery (i) (hpc : s.thread i = .delivered) :
      Step s { s with
        thread := Function.update s.thread i .leaving, signalDeliveryLock := none }
  | unlockCall (i) (hpc : s.thread i = .leaving) :
      Step s { s with
        thread := Function.update s.thread i .retrying, serviceThrdCallLock := none }
  | retry (i) (hpc : s.thread i = .retrying) (hw : s.allocationLock.writer = none) :
      Step s { s with
        thread := Function.update s.thread i .second
        allocationLock := { s.allocationLock with
          readers := insert (some i) s.allocationLock.readers } }
  | finish (i) (hpc : s.thread i = .second) :
      Step s { s with
        thread := Function.update s.thread i .user
        allocationLock := s.allocationLock.rdunlock (some i) }
  | getReady (hpc : s.service = .waiting) (hf : s.signalDeliveryLock = none) :
      Step s { s with service := .ready, signalDeliveryLock := some none }
  | awaitCall (hpc : s.service = .ready) (hw : s.signalBarrier.waiting = ∅) :
      Step s { s with
        service := .atBarrier
        signalBarrier := { s.signalBarrier with waiting := {none} } }
  | wrlock (hpc : s.service = .summoned) (hw : s.allocationLock.writer = none)
      (hr : s.allocationLock.readers = ∅) :
      Step s { s with
        service := .exclusive
        allocationLock := { s.allocationLock with writer := some none } }
  | deliver (hpc : s.service = .exclusive) :
      Step s { s with service := .stopping, signalDeliveryLock := none }
  | mark (hpc : s.service = .stopping) :
      Step s { s with
        service := .collecting
        progress := fun i => if s.progress i = .nothing then .begun else s.progress i }
  | sweep (hpc : s.service = .collecting) :
      Step s { s with
        service := .swept
        progress := fun i => if s.progress i = .begun then .ended else s.progress i }
  | lockReset (hpc : s.service = .swept) (hf : s.serviceThrdCallLock = none) :
      Step s { s with service := .resetting, serviceThrdCallLock := some none }
  | resetFlag (hpc : s.service = .resetting) :
      Step s { s with service := .reset, isGcCalled := false }
  | unlockReset (hpc : s.service = .reset) :
      Step s { s with service := .releasing, serviceThrdCallLock := none }
  | wrunlock (hpc : s.service = .releasing) :
      Step s { s with service := .waiting, allocationLock := s.allocationLock.wrunlock }

section Preservation

variable {s s' : State n}

theorem Step.call (hs : Step s s') (h : s.serviceThrdCallLock.Tracks s.holdsCallLock) :
    s'.serviceThrdCallLock.Tracks s'.holdsCallLock := by
  rw [State.holdsCallLock_eq] at h ⊢
  cases hs with
  | lockCall i hpc hf => exact h.lock_of hf (State.holds_thread rfl rfl rfl)
  | unlockCall i hpc =>
    exact h.unlock_of (State.holds_some hpc) (State.holds_thread rfl rfl rfl)
  | lockReset hpc hf => exact h.lock_of hf (State.holds_service rfl rfl)
  | unlockReset hpc =>
    exact h.unlock_of (State.holds_none hpc) (State.holds_service rfl rfl)
  | meet i hpc =>
    -- the thread holds the mutex before and after, and the service thread does not
    have hthread : (s.thread i).holdsCallLock = true ∧ s.service.holdsCallLock = false := by
      rcases hpc with ⟨hi, hs⟩ | ⟨hi, hs⟩
      · rw [hi, hs]
        exact ⟨rfl, rfl⟩
      · rw [hi, hs]
        exact ⟨rfl, rfl⟩
    exact h.keep_both_of (p := some i) (q := none) hthread.1 hthread.2
      (Option.some_ne_none i).symm (State.holds_meet rfl rfl rfl)
  | rdlock i hpc | succeed i hpc | fail i hpc | skip i hpc | request i hpc | arriveFirst i hpc
  | lockDelivery i hpc | unlockDelivery i hpc | retry i hpc | finish i hpc =>
    exact h.keep_of (State.holds_some hpc) (State.holds_thread rfl rfl rfl)
  | getReady hpc | awaitCall hpc | wrlock hpc | deliver hpc | mark hpc | sweep hpc
  | resetFlag hpc | wrunlock hpc =>
    exact h.keep_of (State.holds_none hpc) (State.holds_service rfl rfl)

theorem Step.delivery (hs : Step s s') (h : s.signalDeliveryLock.Tracks s.holdsDelivery) :
    s'.signalDeliveryLock.Tracks s'.holdsDelivery := by
  rw [State.holdsDelivery_eq] at h ⊢
  cases hs with
  | lockDelivery i hpc hf => exact h.lock_of hf (State.holds_thread rfl rfl rfl)
  | unlockDelivery i hpc =>
    exact h.unlock_of (State.holds_some hpc) (State.holds_thread rfl rfl rfl)
  | getReady hpc hf => exact h.lock_of hf (State.holds_service rfl rfl)
  | deliver hpc =>
    exact h.unlock_of (State.holds_none hpc) (State.holds_service rfl rfl)
  | meet i hpc =>
    -- the service thread holds the spin lock before and after, and the thread does not
    have hthread : decide (s.thread i = .delivered) = false ∧ s.service.holdsDelivery = true := by
      rcases hpc with ⟨hi, hs⟩ | ⟨hi, hs⟩
      · rw [hi, hs]
        exact ⟨rfl, rfl⟩
      · rw [hi, hs]
        exact ⟨rfl, rfl⟩
    exact h.keep_both_of (p := some i) (q := none) hthread.1 hthread.2
      (Option.some_ne_none i).symm (State.holds_meet rfl rfl rfl)
  | rdlock i hpc | succeed i hpc | fail i hpc | lockCall i hpc | skip i hpc | request i hpc
  | arriveFirst i hpc | unlockCall i hpc | retry i hpc | finish i hpc =>
    exact h.keep_of (State.holds_some hpc) (State.holds_thread rfl rfl rfl)
  | awaitCall hpc | wrlock hpc | mark hpc | sweep hpc | lockReset hpc | resetFlag hpc
  | unlockReset hpc | wrunlock hpc =>
    exact h.keep_of (State.holds_none hpc) (State.holds_service rfl rfl)

theorem reads_update {f : Fin n → CallerPc} {i : Fin n} {pc : CallerPc}
    (same : (f i).reads = pc.reads) (j : Fin n) :
    (f j).reads = true ↔ (Function.update f i pc j).reads = true := by
  by_cases hj : j = i
  · rw [hj, Function.update_self, same]
  · rw [Function.update_of_ne hj]

theorem Step.readers (hs : Step s s')
    (h : ∀ i, some i ∈ s.allocationLock.readers ↔ (s.thread i).reads = true) (i : Fin n) :
    some i ∈ s'.allocationLock.readers ↔ (s'.thread i).reads = true := by
  cases hs with
  | rdlock j hpc | retry j hpc =>
    by_cases hi : i = j
    · simp [hi, CallerPc.reads]
    · simpa [hi] using h i
  | succeed j hpc | fail j hpc | finish j hpc =>
    by_cases hi : i = j
    · simp [hi, RwLock.rdunlock, CallerPc.reads]
    · simpa [hi, RwLock.rdunlock] using h i
  | lockCall j hpc | skip j hpc | request j hpc | arriveFirst j hpc | lockDelivery j hpc
  | unlockDelivery j hpc | unlockCall j hpc =>
    refine (h i).trans (reads_update ?_ i)
    rw [hpc]
    rfl
  | meet j hpc =>
    refine (h i).trans (reads_update ?_ i)
    rcases hpc with ⟨hpc, -⟩ | ⟨hpc, -⟩
    · rw [hpc]
      rfl
    · rw [hpc]
      rfl
  | _ => exact h i

theorem Step.writer (hs : Step s s')
    (h : s.allocationLock.writer = none ↔ s.service.writes = false) :
    s'.allocationLock.writer = none ↔ s'.service.writes = false := by
  cases hs with
  | wrlock hpc hw hr => simp [ServicePc.writes]
  | wrunlock hpc => simp [RwLock.wrunlock, ServicePc.writes]
  | meet i hpc =>
    rcases hpc with ⟨-, hs⟩ | ⟨-, hs⟩
    · rw [hs] at h
      exact h
    · rw [hs] at h
      exact h
  | getReady hpc | awaitCall hpc | deliver hpc | mark hpc | sweep hpc | lockReset hpc
  | resetFlag hpc | unlockReset hpc =>
    rw [hpc] at h
    exact h
  | _ => exact h

theorem Step.exclusive (hs : Step s s')
    (hw : s.allocationLock.writer = none ↔ s.service.writes = false)
    (h : s.service.writes = true → s.allocationLock.readers = ∅) :
    s'.service.writes = true → s'.allocationLock.readers = ∅ := by
  intro hwrites
  cases hs with
  | rdlock i hpc hfree | retry i hpc hfree => exact absurd hwrites (by simp [hw.mp hfree])
  | succeed i hpc | fail i hpc | finish i hpc =>
    rw [RwLock.rdunlock, h hwrites, Finset.erase_empty]
  | wrlock hpc hfree hr => exact hr
  | deliver hpc | mark hpc | sweep hpc | lockReset hpc | resetFlag hpc | unlockReset hpc =>
    exact h (by rw [hpc]; rfl)
  | meet i | getReady | awaitCall | wrunlock => cases hwrites
  | _ => exact h hwrites

theorem Step.waits (hs : Step s s') (lone : s.signalBarrier.waiting.card ≤ 1)
    (h : s.signalBarrier.Attended s.waits) : s'.signalBarrier.Attended s'.waits := by
  rw [State.waits_eq] at h ⊢
  cases hs with
  | arriveFirst i hpc hw => exact h.arrive_of hw rfl (State.holds_thread rfl rfl rfl)
  | awaitCall hpc hw => exact h.arrive_of hw rfl (State.holds_service rfl rfl)
  | meet i hpc =>
    refine h.leave_of (p := some i) (q := none) lone rfl ?_ (State.holds_meet rfl rfl rfl)
    rcases hpc with ⟨-, hs⟩ | ⟨hi, -⟩
    · exact Or.inr (decide_eq_true hs)
    · exact Or.inl (decide_eq_true hi)
  | rdlock i hpc | succeed i hpc | fail i hpc | lockCall i hpc | skip i hpc | request i hpc
  | lockDelivery i hpc | unlockDelivery i hpc | unlockCall i hpc | retry i hpc | finish i hpc =>
    exact h.keep_of (State.holds_some hpc) (State.holds_thread rfl rfl rfl)
  | getReady hpc | wrlock hpc | deliver hpc | mark hpc | sweep hpc | lockReset hpc
  | resetFlag hpc | unlockReset hpc | wrunlock hpc =>
    exact h.keep_of (State.holds_none hpc) (State.holds_service rfl rfl)

theorem Step.lone (hs : Step s s') (h : s.signalBarrier.waiting.card ≤ 1) :
    s'.signalBarrier.waiting.card ≤ 1 := by
  cases hs <;> simp [h]

theorem Step.count (hs : Step s s') : s'.signalBarrier.count = s.signalBarrier.count := by
  cases hs <;> rfl

theorem Step.wf (hs : Step s s') (h : Wf s) : Wf s' where
  call := hs.call h.call
  delivery := hs.delivery h.delivery
  readers := hs.readers h.readers
  writer := hs.writer h.writer
  exclusive := hs.exclusive h.writer h.exclusive
  count := hs.count.trans h.count
  lone := hs.lone h.lone
  waits := hs.waits h.lone h.waits

end Preservation

theorem thread_arrives {s : State n} (h : Wf s) {i : Fin n} (hpc : s.thread i = .arriving) :
    Step s (barrierWait s (some i)) := by
  rcases h.waits.cases h.lone with hw | ⟨p, hw, hp⟩
  · convert Step.arriveFirst i hpc hw using 1
    ext1 <;> simp [barrierWait, Barrier.arrive_first h.count hw]
    ext k
    grind
  · have hp0 : p = none := by
      rcases p with _ | j
      · rfl
      · have hj : s.thread j = .atBarrier := by simpa [State.waits] using hp
        have := h.call.unique (p := some j) (q := some i)
          (by simp [State.holdsCallLock, hj, CallerPc.holdsCallLock])
          (by simp [State.holdsCallLock, hpc, CallerPc.holdsCallLock])
        simp_all
    subst hp0
    have hs : s.service = .atBarrier := by simpa [State.waits] using hp
    convert Step.meet i (Or.inl ⟨hpc, hs⟩) using 1
    ext1 <;> simp [barrierWait, Barrier.arrive_second h.count hw]
    ext k
    grind

theorem service_arrives {s : State n} (h : Wf s) (hpc : s.service = .ready) :
    Step s (barrierWait s none) := by
  rcases h.waits.cases h.lone with hw | ⟨p, hw, hp⟩
  · convert Step.awaitCall hpc hw using 1
    ext1 <;> simp [barrierWait, Barrier.arrive_first h.count hw]
  · rcases p with _ | j
    · simp [State.waits, hpc] at hp
    have hj : s.thread j = .atBarrier := by simpa [State.waits] using hp
    convert Step.meet j (Or.inr ⟨hj, hpc⟩) using 1
    ext1 <;> simp [barrierWait, Barrier.arrive_second h.count hw]
    ext k
    grind

theorem step_outcome {s s' : State n} {a : Action n} (h : Wf s) (hs : step s a = some s') :
    Step s s' := by
  cases a with
  | thread i ok =>
    simp only [step, threadStep, setThread] at hs
    cases hpc : s.thread i <;> simp only [hpc] at hs
    case user =>
      simp only [Option.map_eq_some_iff, RwLock.rdlock_eq_some] at hs
      obtain ⟨l, ⟨hw, rfl⟩, rfl⟩ := hs
      exact .rdlock i hpc hw
    case first =>
      split at hs <;> cases hs
      · exact .succeed i hpc
      · exact .fail i hpc
    case called =>
      split at hs <;> cases hs
      exact .lockCall i hpc ‹_›
    case locked =>
      by_cases hflag : s.isGcCalled = true
      · rw [if_pos hflag] at hs
        cases hs
        exact .skip i hpc hflag
      · rw [if_neg hflag] at hs
        cases hs
        exact .request i hpc (Bool.eq_false_of_not_eq_true hflag)
    case arriving =>
      cases hs
      exact thread_arrives h hpc
    case passed =>
      split at hs <;> cases hs
      exact .lockDelivery i hpc ‹_›
    case retrying =>
      simp only [Option.map_eq_some_iff, RwLock.rdlock_eq_some] at hs
      obtain ⟨l, ⟨hw, rfl⟩, rfl⟩ := hs
      exact .retry i hpc hw
    all_goals cases hs
    · exact .unlockDelivery i hpc
    · exact .unlockCall i hpc
    · exact .finish i hpc
  | service =>
    simp only [step, serviceStep] at hs
    cases hpc : s.service <;> simp only [hpc] at hs
    case waiting =>
      split at hs <;> cases hs
      exact .getReady hpc ‹_›
    case ready =>
      cases hs
      exact service_arrives h hpc
    case summoned =>
      simp only [Option.map_eq_some_iff, RwLock.wrlock_eq_some] at hs
      obtain ⟨l, ⟨⟨hw, hr⟩, rfl⟩, rfl⟩ := hs
      exact .wrlock hpc hw hr
    case swept =>
      split at hs <;> cases hs
      exact .lockReset hpc ‹_›
    all_goals cases hs
    · exact .deliver hpc
    · exact .mark hpc
    · exact .sweep hpc
    · exact .resetFlag hpc
    · exact .unlockReset hpc
    · exact .wrunlock hpc

theorem reachable_wf {s : State n} (h : Reachable n s) : Wf s :=
  h.invariant (fun _ hi => hi ▸ initial_wf n) fun _ _ _ hw _ hs => (step_outcome hw hs).wf hw

theorem mem_opened {b : Barrier (Party n)} {p q : Party n} (h : q ∈ (b.arrive p).2) :
    q = p ∨ q ∈ b.waiting := by
  rcases b.arrive_cases p with ⟨-, harrive⟩ | ⟨-, harrive⟩
  · rw [harrive] at h
    exact Finset.mem_insert.mp h
  · rw [harrive] at h
    cases h

/-- A thread moves the service thread only when it meets it at the barrier. -/
theorem thread_service {s s' : State n} (hw : Wf s) {i : Fin n} {ok : Bool}
    (hs : step s (.thread i ok) = some s') :
    s'.service = s.service ∨ s.service = .atBarrier ∧ s'.service = .summoned := by
  simp only [step, threadStep, setThread] at hs
  cases hpc : s.thread i <;> simp only [hpc] at hs
  case arriving =>
    cases hs
    by_cases hopen : none ∈ (s.signalBarrier.arrive (some i)).2
    · refine Or.inr ⟨?_, by simp only [barrierWait, if_pos hopen]⟩
      rcases mem_opened hopen with he | hwait
      · cases he
      · exact of_decide_eq_true ((hw.waits none).mp hwait)
    · refine Or.inl ?_
      simp only [barrierWait, if_neg hopen]
      rfl
  case user | retrying =>
    obtain ⟨l, -, rfl⟩ := Option.map_eq_some_iff.mp hs
    exact Or.inl rfl
  case first | called | locked | passed =>
    split at hs <;> cases hs <;> exact Or.inl rfl
  all_goals cases hs
  all_goals exact Or.inl rfl

/-- How far the callers, the service thread, the flag and the progress can be apart. -/
structure Coordinated (s : State n) : Prop where
  passed : ∀ i, s.thread i = .passed → s.service = .summoned ∨ s.service = .exclusive ∨
    s.service.busy = true
  told : ∀ i, s.thread i = .delivered ∨ s.thread i = .leaving → s.service.busy = true
  called : s.isGcCalled = true → (∃ i, (s.thread i).calling = true) ∨ s.service.busy = true ∨
    s.service = .resetting
  begun : s.service = .collecting → ∀ i, s.progress i ≠ .nothing
  ended : s.service.after = true → ∀ i, s.progress i = .ended
  retrying : ∀ i, s.thread i = .retrying → s.progress i = .ended ∨ s.service = .stopping ∨
    s.service = .collecting

theorem initial_coordinated (n : Nat) : Coordinated (initial n) := by
  constructor <;> simp [initial, ServicePc.after]

section Coordination

variable {s s' : State n}

/-- Between the end of a service and the next rendezvous no thread has passed the barrier. -/
theorem Coordinated.not_passed (h : Coordinated s) {pc : ServicePc} (hpc : s.service = pc)
    (hs : pc ≠ .summoned) (he : pc ≠ .exclusive) (hb : pc.busy = false) (j : Fin n) :
    s.thread j ≠ .passed := by
  intro hj
  rcases h.passed j hj with hsummoned | hexclusive | hbusy
  · exact hs (hpc.symm.trans hsummoned)
  · exact he (hpc.symm.trans hexclusive)
  · rw [hpc, hb] at hbusy
    cases hbusy

theorem Step.passed (hs : Step s s') (hw : Wf s) (h : Coordinated s) (j : Fin n) :
    s'.thread j = .passed → s'.service = .summoned ∨ s'.service = .exclusive ∨
      s'.service.busy = true := by
  intro hj
  cases hs with
  | rdlock i | succeed i | fail i | lockCall i | skip i | request i | arriveFirst i
  | lockDelivery i | unlockDelivery i | unlockCall i | retry i | finish i =>
    exact h.passed j (eq_of_update hj (by simp))
  | meet i hpc => exact Or.inl rfl
  | wrlock hpc => exact Or.inr (Or.inl rfl)
  | deliver | mark | sweep => exact Or.inr (Or.inr rfl)
  | lockReset hpc hf =>
    have hheld := hw.call.none_holds hf (some j)
    rw [State.holdsCallLock, hj] at hheld
    cases hheld
  | getReady hpc | awaitCall hpc | resetFlag hpc | unlockReset hpc | wrunlock hpc =>
    exact absurd hj (h.not_passed hpc (by simp) (by simp) rfl j)

theorem Step.told (hs : Step s s') (hw : Wf s) (h : Coordinated s) (j : Fin n) :
    s'.thread j = .delivered ∨ s'.thread j = .leaving → s'.service.busy = true := by
  intro hj
  cases hs with
  | skip i hpc hf =>
    -- the mutex is held here, so the thread that raised the flag has delivered its signal
    have hlocked : (s.thread i).holdsCallLock = true := by simp [hpc, CallerPc.holdsCallLock]
    have hmine := hw.service_excluded hlocked
    have hbusy : s.service.busy = true := by
      rcases h.called hf with ⟨k, hk⟩ | hb | hr
      · have hki := hw.caller_unique (CallerPc.holdsCallLock_of_calling hk) hlocked
        simp [hki, hpc, CallerPc.calling] at hk
      · exact hb
      · simp [hr, ServicePc.holdsCallLock] at hmine
    exact hbusy
  | lockDelivery i hpc hf =>
    by_cases hji : j = i
    · -- nobody holds the spin lock, so the service thread has left its exclusive part
      have hfree := hw.delivery.none_holds hf none
      rcases h.passed i hpc with hsummoned | hexclusive | hbusy
      · rw [State.holdsDelivery, hsummoned] at hfree
        cases hfree
      · rw [State.holdsDelivery, hexclusive] at hfree
        cases hfree
      · exact hbusy
    · simp only [Function.update_of_ne hji] at hj
      exact h.told j hj
  | unlockDelivery i hpc =>
    by_cases hji : j = i
    · exact h.told i (Or.inl hpc)
    · simp only [Function.update_of_ne hji] at hj
      exact h.told j hj
  | rdlock i | succeed i | fail i | lockCall i | request i | arriveFirst i | unlockCall i
  | retry i | finish i =>
    exact h.told j (hj.imp (fun hd => eq_of_update hd (by simp))
      fun hl => eq_of_update hl (by simp))
  | meet i hpc =>
    have hbusy := h.told j (hj.imp (fun hd => eq_of_update hd (by simp))
      fun hl => eq_of_update hl (by simp))
    rcases hpc with ⟨-, hs⟩ | ⟨-, hs⟩
    · rw [hs] at hbusy
      cases hbusy
    · rw [hs] at hbusy
      cases hbusy
  | deliver | mark | sweep => rfl
  | getReady hpc | awaitCall hpc | wrlock hpc | resetFlag hpc | unlockReset hpc
  | wrunlock hpc =>
    have hbusy := h.told j hj
    rw [hpc] at hbusy
    cases hbusy
  | lockReset hpc hf =>
    have hheld := hw.call.none_holds hf (some j)
    rcases hj with hj | hj
    · rw [State.holdsCallLock, hj] at hheld
      cases hheld
    · rw [State.holdsCallLock, hj] at hheld
      cases hheld

/-- A caller that has raised the flag stays between there and the delivery of its signal. -/
theorem Step.calling_kept (hs : Step s s') {k : Fin n} (hk : (s.thread k).calling = true) :
    (s'.thread k).calling = true ∨ s.thread k = .delivered := by
  cases hs <;> grind [CallerPc.calling]

theorem Step.busy_kept (hs : Step s s') (hb : s.service.busy = true) :
    s'.service.busy = true ∨ s'.service = .resetting := by
  cases hs with
  | meet i hpc => rcases hpc with ⟨_, hpc⟩ | ⟨_, hpc⟩ <;> simp_all [ServicePc.busy]
  | _ => simp_all [ServicePc.busy]

theorem Step.resetting_kept (hs : Step s s') (hr : s.service = .resetting) :
    s'.service = .resetting ∨ s'.isGcCalled = false := by
  cases hs <;> simp_all

theorem Step.flag_raised (hs : Step s s') (hflag : s'.isGcCalled = true) :
    s.isGcCalled = true ∨ ∃ i, (s'.thread i).calling = true := by
  cases hs with
  | request i hpc hf => exact Or.inr ⟨i, by simp [CallerPc.calling]⟩
  | resetFlag hpc => cases hflag
  | _ => exact Or.inl hflag

theorem Step.called (hs : Step s s') (h : Coordinated s) (told : ∀ i,
    s.thread i = .delivered → s'.service.busy = true ∨ s'.service = .resetting) :
    s'.isGcCalled = true → (∃ i, (s'.thread i).calling = true) ∨ s'.service.busy = true ∨
      s'.service = .resetting := by
  intro hflag
  rcases hs.flag_raised hflag with hraised | hcalling
  · rcases h.called hraised with ⟨k, hk⟩ | hb | hr
    · rcases hs.calling_kept hk with hk | hk
      · exact Or.inl ⟨k, hk⟩
      · exact Or.inr (told k hk)
    · exact Or.inr (hs.busy_kept hb)
    · rcases hs.resetting_kept hr with hr | hlowered
      · exact Or.inr (Or.inr hr)
      · rw [hlowered] at hflag
        cases hflag
  · exact Or.inl hcalling

theorem Step.begun (hs : Step s s') (hw : Wf s) (h : Coordinated s) (j : Fin n) :
    s'.service = .collecting → s'.progress j ≠ .nothing := by
  have hb := h.begun
  have hr := hw.readers
  have hex := hw.exclusive
  cases hs with
  | fail i hpc =>
    intro hcol
    have hi : some i ∈ s.allocationLock.readers := (hr i).mpr (by simp [hpc, CallerPc.reads])
    simp_all [ServicePc.writes]
  | _ => grind

theorem Step.ended (hs : Step s s') (hw : Wf s) (h : Coordinated s) (j : Fin n) :
    s'.service.after = true → s'.progress j = .ended := by
  have he := h.ended
  have hb := h.begun
  cases hs with
  | fail i hpc =>
    intro hafter
    have hi : some i ∈ s.allocationLock.readers :=
      (hw.readers i).mpr (by simp [hpc, CallerPc.reads])
    rw [hw.exclusive (ServicePc.writes_of_after hafter)] at hi
    cases hi
  | sweep hpc => exact fun _ => (s.progress j).ends (hb hpc j)
  | _ => grind [ServicePc.after]

theorem Step.retrying (hs : Step s s') (h : Coordinated s) (j : Fin n) :
    s'.thread j = .retrying → s'.progress j = .ended ∨ s'.service = .stopping ∨
      s'.service = .collecting := by
  have hj := h.retrying j
  have ht := h.told j
  have hb := h.begun
  have he := h.ended
  cases hs with
  | sweep hpc => exact fun _ => Or.inl ((s.progress j).ends (hb hpc j))
  | _ => grind [ServicePc.busy, ServicePc.after]

theorem Step.coordinated (hs : Step s s') (hw : Wf s) (h : Coordinated s) : Coordinated s' where
  passed := hs.passed hw h
  told := hs.told hw h
  called := hs.called h fun i hi => hs.busy_kept (h.told i (Or.inl hi))
  begun := fun hc j => hs.begun hw h j hc
  ended := fun ha j => hs.ended hw h j ha
  retrying := hs.retrying h

end Coordination

theorem reachable_coordinated {s : State n} (h : Reachable n s) : Coordinated s :=
  h.invariant_of (fun _ hr => reachable_wf hr) (fun _ hi => hi ▸ initial_coordinated n)
    fun _ _ _ hw hc _ hs => (step_outcome hw hs).coordinated hw hc

/-- The step into the second attempt is taken under the read lock, which the service thread
keeps away until its collection is over. -/
theorem Step.second {s s' : State n} (hs : Step s s') (hw : Wf s) (h : Coordinated s) {i : Fin n}
    (before : s.thread i ≠ .second) (after : s'.thread i = .second) :
    s'.progress i = .ended := by
  have hr := h.retrying i
  have hwr := hw.writer
  cases hs <;> grind [ServicePc.writes]

theorem retry_after_collection {s : State n} (h : Reachable n s) :
    (∀ i a s', s.thread i ≠ .second → step s a = some s' → s'.thread i = .second →
      s'.progress i = .ended) ∧
    ∀ i j, s.thread i = .atBarrier → s.thread j = .atBarrier → i = j := by
  have hw := reachable_wf h
  constructor
  · intro i a s' before hs after
    exact (step_outcome hw hs).second hw (reachable_coordinated h) before after
  · intro i j hi hj
    exact hw.caller_unique (by simp [hi, CallerPc.holdsCallLock])
      (by simp [hj, CallerPc.holdsCallLock])

/-- Both threads fail, thread 0 calls the service thread, thread 1 finds the flag raised and
skips the rendezvous, and both come back after the collection. -/
def sharedCollection : List (Action 2) :=
  [.thread 0 false, .thread 1 false, .thread 0 false, .thread 1 false, .service, .service,
    .thread 0 false, .thread 0 false, .thread 0 false, .service, .service, .thread 0 false,
    .thread 0 false, .thread 0 false, .thread 1 false, .thread 1 false, .service,
    .thread 1 false, .service, .service, .service, .service, .service]

theorem retry_after_collection_shared :
    ∃ s s' : State 2, s.thread 1 = .retrying ∧ s'.thread 1 = .second ∧
      s'.progress 1 = .ended := by
  obtain ⟨s, hr, before, hs⟩ := Transition.reachable_of_run (initial 2) sharedCollection
    (fun s => s.thread 1 = .retrying ∧
      (step s (.thread 1 true)).any (fun s' => decide (s'.thread 1 = .second)) = true)
    step Transition.anyStep (by decide)
  obtain ⟨hsome, after⟩ := (Option.any_eq_true_iff_get _ _).mp hs
  have hs' := (Option.some_get hsome).symm
  have after' := of_decide_eq_true after
  exact ⟨s, _, before, after', (retry_after_collection hr).1 1 _ _ (by simp [before]) hs' after'⟩

end GarbageCollector.ServiceThread
