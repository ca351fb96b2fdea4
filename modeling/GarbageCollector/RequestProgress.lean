import GarbageCollector.BoundedRuns
import GarbageCollector.ServiceThread

/-!
# Every request is answered

Progress of the request protocol: when no thread begins a new call of `gc_malloc`, all calls in
progress return after a bounded number of steps, whatever the order of the steps, and the
service thread is back at `signal_barrier`.
-/

namespace GarbageCollector.ServiceThread

open Sync Transition

variable {n : Nat}

/-- No thread begins a call of `gc_malloc`. -/
def NoNewCall (s : State n) : Action n → Prop
  | .thread i _ => s.thread i ≠ .user
  | .service => True

instance (s : State n) (a : Action n) : Decidable (NoNewCall s a) :=
  match a with
  | .thread i _ => inferInstanceAs (Decidable (s.thread i ≠ .user))
  | .service => isTrue trivial

/-- Steps until the return of `gc_malloc`. A thread that has not met the service thread yet is
charged for the collection that this may start. -/
def CallerPc.stepsLeft : CallerPc → Nat
  | .user => 0
  | .second => 1
  | .retrying => 2
  | .leaving => 3
  | .delivered => 4
  | .passed => 5
  | .atBarrier => 15
  | .arriving => 16
  | .locked => 17
  | .called => 18
  | .first => 19

/-- Steps until the service thread waits at `signal_barrier` again. -/
def ServicePc.stepsLeft : ServicePc → Nat
  | .atBarrier => 0
  | .ready => 1
  | .waiting => 2
  | .releasing => 3
  | .reset => 4
  | .resetting => 5
  | .swept => 6
  | .collecting => 7
  | .stopping => 8
  | .exclusive => 9
  | .summoned => 10

def stepsLeft (s : State n) : Nat := ∑ i, (s.thread i).stepsLeft + s.service.stepsLeft

/-- All calls have returned and the service thread waits for the next one. -/
structure AtRest (s : State n) : Prop where
  users : ∀ i, s.thread i = .user
  service : s.service = .atBarrier
  lowered : s.isGcCalled = false
  callLock : s.serviceThrdCallLock = none
  allocation : s.allocationLock = .free

theorem CallerPc.stepsLeft_le (pc : CallerPc) : pc.stepsLeft ≤ 19 := by
  cases pc <;> decide

theorem ServicePc.stepsLeft_le (pc : ServicePc) : pc.stepsLeft ≤ 10 := by
  cases pc <;> decide

theorem stepsLeft_le (s : State n) : stepsLeft s ≤ 19 * n + 10 := by
  have hsum : ∑ i, (s.thread i).stepsLeft ≤ ∑ _i : Fin n, 19 :=
    Finset.sum_le_sum fun i _ => (s.thread i).stepsLeft_le
  have hservice := s.service.stepsLeft_le
  rw [Finset.sum_const, Finset.card_univ, Fintype.card_fin, smul_eq_mul] at hsum
  rw [stepsLeft]
  omega

section Steps

variable {s s' : State n}

/-- A party that arrives at the barrier moves nobody but itself and those who wait there. -/
theorem barrierWait_kept (hw : Wf s) {p : Party n} {i : Fin n} (hp : p ≠ some i)
    (hi : s.thread i ≠ .atBarrier) : (barrierWait s p).thread i = s.thread i := by
  have hout : some i ∉ (s.signalBarrier.arrive p).2 := by
    intro hmem
    rcases mem_opened hmem with he | hwait
    · exact hp he.symm
    · have hat := (hw.waits (some i)).mp hwait
      exact hi (by simpa [State.waits] using hat)
  simp only [barrierWait, if_neg hout, if_neg hp]

/-- A thread that does not wait at the barrier is moved by its own steps only. -/
theorem thread_kept {a : Action n} (hw : Wf s) (hs : step s a = some s') {i : Fin n}
    (hother : ∀ ok, a ≠ .thread i ok) (hi : s.thread i ≠ .atBarrier) :
    s'.thread i = s.thread i := by
  cases a with
  | thread j ok =>
    have hij : i ≠ j := by
      rintro rfl
      exact hother ok rfl
    have hji : some j ≠ some i := fun he => hij (Option.some.inj he).symm
    have hturn : ∀ pc, Function.update s.thread j pc i = s.thread i := fun pc => by
      rw [Function.update_of_ne hij]
    simp only [step, threadStep, setThread] at hs
    cases hpc : s.thread j <;> simp only [hpc] at hs
    case arriving =>
      cases hs
      exact barrierWait_kept hw hji hi
    case user | retrying =>
      obtain ⟨l, -, rfl⟩ := Option.map_eq_some_iff.mp hs
      exact hturn _
    case first | called | locked | passed =>
      split at hs <;> cases hs <;> exact hturn _
    all_goals cases hs
    all_goals exact hturn _
  | service =>
    simp only [step, serviceStep] at hs
    cases hpc : s.service <;> simp only [hpc] at hs
    case ready =>
      cases hs
      exact barrierWait_kept hw (by simp) hi
    case summoned =>
      obtain ⟨l, -, rfl⟩ := Option.map_eq_some_iff.mp hs
      rfl
    case waiting | swept =>
      split at hs <;> cases hs
      rfl
    all_goals cases hs
    all_goals rfl

/-- Without a new call, a thread in user code stays there. -/
theorem user_kept {a : Action n} (hw : Wf s) (hok : NoNewCall s a) (hs : step s a = some s')
    {i : Fin n} (hi : s.thread i = .user) : s'.thread i = .user := by
  rw [thread_kept hw hs ?_ (by simp [hi]), hi]
  rintro ok rfl
  exact hok hi

theorem stepsLeft_thread {i : Fin n} {pc : CallerPc} {t : State n}
    (hpc : pc.stepsLeft < (s.thread i).stepsLeft)
    (ht : t.thread = Function.update s.thread i pc) (hservice : t.service = s.service) :
    stepsLeft t < stepsLeft s := by
  have hsum := weights_update CallerPc.stepsLeft s.thread i pc
  simp only [stepsLeft, ht, hservice]
  omega

theorem stepsLeft_service {t : State n} (ht : t.thread = s.thread)
    (hservice : t.service.stepsLeft < s.service.stepsLeft) : stepsLeft t < stepsLeft s := by
  simp only [stepsLeft, ht]
  omega

theorem Step.lower (hs : Step s s') (hkept : ∀ i, s.thread i = .user → s'.thread i = .user) :
    stepsLeft s' < stepsLeft s := by
  cases hs with
  | rdlock i hpc hw =>
    have huser := hkept i hpc
    simp at huser
  | meet i hpc =>
    -- the thread pays for the collection that begins here
    have hsum := weights_update CallerPc.stepsLeft s.thread i .passed
    simp only [stepsLeft]
    rcases hpc with ⟨hi, hservice⟩ | ⟨hi, hservice⟩ <;>
      simp only [hi, hservice, CallerPc.stepsLeft, ServicePc.stepsLeft] at hsum ⊢ <;> omega
  | succeed i hpc | fail i hpc | lockCall i hpc hf | skip i hpc hf | request i hpc hf
  | arriveFirst i hpc hw | lockDelivery i hpc hf | unlockDelivery i hpc | unlockCall i hpc
  | retry i hpc hw | finish i hpc =>
    refine stepsLeft_thread (i := i) ?_ rfl rfl
    simp [hpc, CallerPc.stepsLeft]
  | getReady hpc hf | awaitCall hpc hw | wrlock hpc hw hr | deliver hpc | mark hpc | sweep hpc
  | lockReset hpc hf | resetFlag hpc | unlockReset hpc | wrunlock hpc =>
    refine stepsLeft_service rfl ?_
    simp [hpc, ServicePc.stepsLeft]

end Steps

/-- From the rendezvous until the flag is lowered. -/
def ServicePc.inRound : ServicePc → Bool
  | .summoned | .exclusive | .stopping | .collecting | .swept | .resetting => true
  | _ => false

/-- From the lowering of the flag until the rendezvous. -/
def ServicePc.between : ServicePc → Bool
  | .releasing | .waiting | .ready | .atBarrier => true
  | _ => false

/-- The flag is up from the call to the end of the round, and a caller that has not met the
service thread finds it between two rounds. -/
structure Timely (s : State n) : Prop where
  readers : none ∉ s.allocationLock.readers
  raised : ∀ i, (s.thread i).calling = true → s.isGcCalled = true
  round : s.service.inRound = true → s.isGcCalled = true
  waits : ∀ i, s.thread i = .arriving ∨ s.thread i = .atBarrier → s.service.between = true

theorem initial_timely (n : Nat) : Timely (initial n) := by
  constructor <;> simp [initial, RwLock.free, CallerPc.calling, ServicePc.inRound]

section Rounds

variable {s s' : State n}

theorem Step.noServiceReader (hs : Step s s') (h : none ∉ s.allocationLock.readers) :
    none ∉ s'.allocationLock.readers := by
  cases hs <;> simp_all [RwLock.rdunlock, RwLock.wrunlock]

theorem Step.raised (hs : Step s s') (hw : Wf s) (h : Timely s) (j : Fin n) :
    (s'.thread j).calling = true → s'.isGcCalled = true := by
  have hj := h.raised j
  cases hs with
  | resetFlag hpc =>
    intro hcall
    have hexcluded := hw.service_excluded (CallerPc.holdsCallLock_of_calling hcall)
    simp [hpc, ServicePc.holdsCallLock] at hexcluded
  | _ => grind [CallerPc.calling]

theorem Step.round (hs : Step s s') (h : Timely s) :
    s'.service.inRound = true → s'.isGcCalled = true := by
  have hr := h.round
  cases hs with
  | meet i hpc =>
    refine fun _ => h.raised i ?_
    rcases hpc with ⟨hi, -⟩ | ⟨hi, -⟩ <;> simp [hi, CallerPc.calling]
  | _ => grind [ServicePc.inRound]

theorem Step.between (hs : Step s s') (hw : Wf s) (h : Timely s) (j : Fin n) :
    s'.thread j = .arriving ∨ s'.thread j = .atBarrier → s'.service.between = true := by
  have hj := h.waits j
  cases hs with
  | request i hpc hf =>
    -- the flag is down and the mutex is not with the service thread
    have hmine := hw.service_excluded (i := i) (by simp [hpc, CallerPc.holdsCallLock])
    have hround := h.round
    intro _
    cases hservice : s.service <;>
      simp_all [ServicePc.between, ServicePc.inRound, ServicePc.holdsCallLock]
  | meet i hpc =>
    intro hwait
    by_cases hji : j = i
    · simp [hji] at hwait
    · simp only [Function.update_of_ne hji] at hwait
      refine absurd (hw.caller_unique ?_ ?_) hji
      · rcases hwait with hj | hj <;> simp [hj, CallerPc.holdsCallLock]
      · rcases hpc with ⟨hi, -⟩ | ⟨hi, -⟩ <;> simp [hi, CallerPc.holdsCallLock]
  | _ => grind [ServicePc.between]

theorem Step.timely (hs : Step s s') (hw : Wf s) (h : Timely s) : Timely s' where
  readers := hs.noServiceReader h.readers
  raised := hs.raised hw h
  round := hs.round h
  waits := hs.between hw h

end Rounds

/-- What the progress of the protocol rests on. -/
structure Good (s : State n) : Prop where
  wf : Wf s
  coordinated : Coordinated s
  timely : Timely s

theorem Good.stepped {s s' : State n} (h : Good s) {a : Action n} (hs : step s a = some s') :
    Good s' where
  wf := (step_outcome h.wf hs).wf h.wf
  coordinated := (step_outcome h.wf hs).coordinated h.wf h.coordinated
  timely := (step_outcome h.wf hs).timely h.wf h.timely

theorem reachable_good {s : State n} (h : Reachable n s) : Good s :=
  h.invariant (fun _ hi => hi ▸ ⟨initial_wf n, initial_coordinated n, initial_timely n⟩)
    fun _ _ _ hg _ hs => hg.stepped hs

theorem descends : Descends step NoNewCall (Good (n := n)) stepsLeft where
  keep := fun _ _ _ hg _ hs => hg.stepped hs
  lower := fun _ _ _ hg hok hs =>
    (step_outcome hg.wf hs).lower fun _ hi => user_kept hg.wf hok hs hi

section Progress

variable {s : State n}

/-- The five places at which a thread can be held up. -/
theorem Final.thread (h : Final step NoNewCall s) (i : Fin n) :
    s.thread i = .user ∨ s.thread i = .atBarrier ∨
      (s.thread i = .called ∧ s.serviceThrdCallLock ≠ none) ∨
      (s.thread i = .passed ∧ s.signalDeliveryLock ≠ none) ∨
      (s.thread i = .retrying ∧ s.allocationLock.writer ≠ none) := by
  by_cases huser : s.thread i = .user
  · exact Or.inl huser
  have hnone := h (.thread i true) huser
  simp only [step, threadStep] at hnone
  cases hpc : s.thread i
  case locked =>
    by_cases hflag : s.isGcCalled = true <;> simp [hpc, hflag] at hnone
  all_goals simp_all [RwLock.rdlock]

/-- The four places at which the service thread can be held up. -/
theorem Final.service (h : Final step NoNewCall s) :
    s.service = .atBarrier ∨ (s.service = .waiting ∧ s.signalDeliveryLock ≠ none) ∨
      (s.service = .summoned ∧
        ¬ (s.allocationLock.writer = none ∧ s.allocationLock.readers = ∅)) ∨
      (s.service = .swept ∧ s.serviceThrdCallLock ≠ none) := by
  have hnone := h .service trivial
  simp only [step, serviceStep] at hnone
  cases hpc : s.service <;> simp_all [RwLock.wrlock]

/-- Whoever holds `signal_delivery_lock` can go on, or is the service thread. -/
theorem Good.delivery_holder (h : Good s) (hfinal : Final step NoNewCall s)
    (hlock : s.signalDeliveryLock ≠ none) : s.service.holdsDelivery = true := by
  obtain ⟨p, hp⟩ := Option.ne_none_iff_exists'.mp hlock
  have hold := (h.wf.delivery p).mp hp
  cases p with
  | none => exact hold
  | some i =>
    have hi : s.thread i = .delivered := by simpa [State.holdsDelivery] using hold
    have hplaces := Final.thread hfinal i
    simp [hi] at hplaces

/-- Between two rounds no thread stands at the barrier or behind it. -/
theorem Good.call_holder (h : Good s) (hfinal : Final step NoNewCall s)
    (hlock : s.serviceThrdCallLock ≠ none) :
    s.service.holdsCallLock = true ∨
      ∃ i, s.thread i = .atBarrier ∨ s.thread i = .passed ∧ s.signalDeliveryLock ≠ none := by
  obtain ⟨p, hp⟩ := Option.ne_none_iff_exists'.mp hlock
  have hold := (h.wf.call p).mp hp
  cases p with
  | none => exact Or.inl hold
  | some i =>
    refine Or.inr ⟨i, ?_⟩
    rcases Final.thread hfinal i with hi | hi | ⟨hi, -⟩ | hi | ⟨hi, -⟩
    · simp [State.holdsCallLock, hi, CallerPc.holdsCallLock] at hold
    · exact Or.inl hi
    · simp [State.holdsCallLock, hi, CallerPc.holdsCallLock] at hold
    · exact Or.inr hi
    · simp [State.holdsCallLock, hi, CallerPc.holdsCallLock] at hold

theorem Good.no_readers (h : Good s) (hfinal : Final step NoNewCall s) :
    s.allocationLock.readers = ∅ := by
  refine Finset.eq_empty_of_forall_notMem fun p hp => ?_
  cases p with
  | none => exact h.timely.readers hp
  | some i =>
    have hreads := (h.wf.readers i).mp hp
    rcases Final.thread hfinal i with hi | hi | ⟨hi, -⟩ | ⟨hi, -⟩ | ⟨hi, -⟩ <;>
      simp [hi, CallerPc.reads] at hreads

/-- The service thread is only ever held up at the barrier. -/
theorem Good.service_waits (h : Good s) (hfinal : Final step NoNewCall s) :
    s.service = .atBarrier := by
  rcases Final.service hfinal with hpc | ⟨hpc, hlock⟩ | ⟨hpc, hlock⟩ | ⟨hpc, hlock⟩
  · exact hpc
  · have hold := h.delivery_holder hfinal hlock
    simp [hpc, ServicePc.holdsDelivery] at hold
  · refine absurd ⟨h.wf.writer.mpr ?_, h.no_readers hfinal⟩ hlock
    simp [hpc, ServicePc.writes]
  · rcases h.call_holder hfinal hlock with hold | ⟨i, hi | ⟨-, hdelivery⟩⟩
    · simp [hpc, ServicePc.holdsCallLock] at hold
    · have hbetween := h.timely.waits i (Or.inr hi)
      simp [hpc, ServicePc.between] at hbetween
    · have hold := h.delivery_holder hfinal hdelivery
      simp [hpc, ServicePc.holdsDelivery] at hold

/-- While the service thread waits at the barrier no thread waits there or has passed it. -/
theorem Good.not_met (h : Good s) (hservice : s.service = .atBarrier) (i : Fin n) :
    s.thread i ≠ .atBarrier ∧ s.thread i ≠ .passed := by
  constructor
  · intro hi
    have hthread : some i ∈ s.signalBarrier.waiting :=
      (h.wf.waits _).mpr (by simp [State.waits, hi])
    have hself : none ∈ s.signalBarrier.waiting :=
      (h.wf.waits _).mpr (by simp [State.waits, hservice])
    cases Finset.card_le_one.mp h.wf.lone _ hthread _ hself
  · intro hi
    have hplace := h.coordinated.passed i hi
    simp [hservice, ServicePc.busy] at hplace

theorem Good.call_lock_free (h : Good s) (hfinal : Final step NoNewCall s)
    (hservice : s.service = .atBarrier) : s.serviceThrdCallLock = none := by
  by_contra hlock
  rcases h.call_holder hfinal hlock with hold | ⟨i, hi | ⟨hi, -⟩⟩
  · simp [hservice, ServicePc.holdsCallLock] at hold
  · exact (h.not_met hservice i).1 hi
  · exact (h.not_met hservice i).2 hi

theorem Good.atRest (h : Good s) (hfinal : Final step NoNewCall s) : AtRest s := by
  have hservice := h.service_waits hfinal
  have hwriter : s.allocationLock.writer = none :=
    h.wf.writer.mpr (by simp [hservice, ServicePc.writes])
  have husers : ∀ i, s.thread i = .user := by
    intro i
    rcases Final.thread hfinal i with hi | hi | ⟨-, hlock⟩ | ⟨hi, -⟩ | ⟨-, hlock⟩
    · exact hi
    · exact absurd hi (h.not_met hservice i).1
    · exact absurd (h.call_lock_free hfinal hservice) hlock
    · exact absurd hi (h.not_met hservice i).2
    · exact absurd hwriter hlock
  refine ⟨husers, hservice, ?_, h.call_lock_free hfinal hservice, ?_⟩
  · refine Bool.eq_false_of_not_eq_true fun hflag => ?_
    rcases h.coordinated.called hflag with ⟨i, hi⟩ | hbusy | hreset
    · simp [husers i, CallerPc.calling] at hi
    · simp [hservice, ServicePc.busy] at hbusy
    · simp [hservice] at hreset
  · have hreaders := h.no_readers hfinal
    cases hlock : s.allocationLock
    simp_all [RwLock.free]

end Progress

/-- From every reachable state, the calls in progress return within a bounded number of steps if
no thread begins another one: no run is longer, a run that cannot go on has come to rest, and
some run does. -/
theorem calls_return {s : State n} (h : Reachable n s) :
    (∀ as s', run step NoNewCall s as = some s' →
      as.length ≤ 19 * n + 10 ∧ (Final step NoNewCall s' → AtRest s')) ∧
    ∃ as s', run step NoNewCall s as = some s' ∧ AtRest s' := by
  obtain ⟨hall, hsome⟩ := descends.rests (fun _ _ hok => hok) (fun _ hg hfinal => hg.atRest hfinal)
    (reachable_good h)
  refine ⟨fun as s' hr => ?_, hsome⟩
  obtain ⟨hle, hrest⟩ := hall as s' hr
  exact ⟨hle.trans (stepsLeft_le s), hrest⟩

theorem calls_return_shared :
    ∃ (s : State 2) (as : List (Action 2)) (s' : State 2), s.thread 1 = .retrying ∧
      run step NoNewCall s as = some s' ∧ AtRest s' := by
  obtain ⟨s, hr, hretrying⟩ := reachable_of_run (initial 2) sharedCollection
    (fun s => s.thread 1 = .retrying) step anyStep (by decide)
  obtain ⟨as, s', hrun, hrest⟩ := (calls_return hr).2
  exact ⟨s, as, s', hretrying, hrun, hrest⟩

end GarbageCollector.ServiceThread
