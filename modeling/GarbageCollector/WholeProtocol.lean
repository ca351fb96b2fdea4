import GarbageCollector.HandshakeProgress
import GarbageCollector.PairedSystems
import GarbageCollector.RequestProgress

/-!
# The whole protocol

`gc_malloc` with its calls of the service thread, and the service thread with `stop_the_world` and
`start_the_world` around mark and sweep: the request protocol and the stop/start handshake side by
side. A thread that is stopped takes no step of its own, wherever `SIGUSR1` finds it, and the
service thread is in one routine at a time.
-/

namespace GarbageCollector.WholeProtocol

open Transition

variable {n : Nat}

/-- The request protocol on the left, the handshake on the right. -/
abbrev State (n : Nat) := ServiceThread.State n × StopTheWorld.State n

abbrev Action (n : Nat) := ServiceThread.Action n ⊕ StopTheWorld.Action n

/-- `service_thread_routine` calls `stop_the_world` before `mark` and `start_the_world` after
`sweep`; a registered thread runs its own code when it is not in `handler`. -/
def may (s : State n) : Action n → Bool
  | .inl (.thread i _) => s.2.thread i = .user
  | .inl .service =>
    match s.1.service with
    | .stopping | .collecting => s.2.service = .stopped
    | _ => s.2.service = .outside
  | .inr .service =>
    match s.1.service with
    | .stopping => s.2.service ≠ .stopped
    | .swept => s.2.service ≠ .outside
    | _ => false
  | .inr _ => true

def step : State n → Action n → Option (State n) :=
  pairStep ServiceThread.step StopTheWorld.step may

abbrev Reachable (n : Nat) (ok : State n → Action n → Prop) : State n → Prop :=
  Transition.Reachable (· = (ServiceThread.initial n, StopTheWorld.initial n)) step ok

/-- `pthread_cond_wait` returns to no stopped thread before the flag is set. -/
abbrev NoEarlyReturn : State n → Action n → Prop := both anyStep StopTheWorld.NoEarlyReturn

/-- The stragglers of the last collection are waited for. -/
abbrev AfterStragglers : State n → Action n → Prop := both anyStep StopTheWorld.AfterStragglers

/-- Moreover no thread begins a call of `gc_malloc`. -/
abbrev NoNewCall : State n → Action n → Prop :=
  both ServiceThread.NoNewCall StopTheWorld.AfterStragglers

/-- Moreover no thread wakes up by itself. -/
abbrev NoLuck : State n → Action n → Prop :=
  both ServiceThread.NoNewCall fun w b => StopTheWorld.AfterStragglers w b ∧ ∀ i, b ≠ .wakeUp i

/-- Inside `start_the_world`. -/
def restarting : StopTheWorld.ServicePc → Bool
  | .starting | .started | .broadcasting | .broadcasted => true
  | _ => false

/-- Where the handshake can be at each point of the loop. -/
def Linked (pc : ServiceThread.ServicePc) (w : StopTheWorld.ServicePc) : Prop :=
  match pc with
  | .stopping => restarting w = false
  | .collecting => w = .stopped
  | .swept => w = .stopped ∨ restarting w = true ∨ w = .outside
  | _ => w = .outside

section Linked

variable {s s' : State n}

/-- A thread moves the service thread only when it opens the barrier for it. -/
theorem handler_service {w w' : StopTheWorld.State n} (hw : StopTheWorld.Wf w)
    {b : StopTheWorld.Action n} (hb : b ≠ .service) (hs : StopTheWorld.step w b = some w') :
    w'.service = w.service ∨ w.service = .atBarrier ∧ w'.service = .barrierPassed := by
  rcases StopTheWorld.thread_step_cases hs hb with ⟨i, rfl, hu, rfl⟩ | ⟨i, pc, -, hservice, -⟩
  · rcases hw.arrives hu with ⟨hpc, -, hopen⟩ | ⟨hpark, -⟩
    · exact Or.inr ⟨hpc, by rw [hopen]; rfl⟩
    · exact Or.inl (by simp [hpark, StopTheWorld.parked])
  · exact Or.inl hservice

/-- `stop_the_world` ends where `start_the_world` begins. -/
theorem service_advances {w w' : StopTheWorld.State n} (hw : StopTheWorld.Wf w)
    (hs : StopTheWorld.step w .service = some w') :
    (restarting w.service = false ∧ w.service ≠ .stopped ∧ restarting w'.service = false ∧
      w'.service ≠ .outside) ∨
    ((w.service = .stopped ∨ restarting w.service = true) ∧
      (restarting w'.service = true ∨ w'.service = .outside)) := by
  simp only [StopTheWorld.step, StopTheWorld.serviceStep] at hs
  cases hpc : w.service <;> simp only [hpc] at hs
  case counted | stopped =>
    split at hs <;> cases hs
    simp [restarting]
  case signalling k =>
    split at hs <;> cases hs
    · simp [restarting]
    · rcases hw.service_arrives hpc with ⟨-, hb⟩ | ⟨hb, -⟩ <;>
        simp [hb, StopTheWorld.opened, StopTheWorld.parked, restarting]
  all_goals cases hs
  all_goals simp [restarting]

theorem request_linked (hw : ServiceThread.Wf s.1) (h : Linked s.1.service s.2.service)
    {a : ServiceThread.Action n} (hmay : may s (.inl a) = true) {r : ServiceThread.State n}
    (hs : ServiceThread.step s.1 a = some r) : Linked r.service s.2.service := by
  cases a with
  | thread i ok =>
    rcases ServiceThread.thread_service hw hs with he | ⟨hpc, hpc'⟩
    · rwa [he]
    · rw [hpc] at h
      rwa [hpc']
  | service =>
    cases ServiceThread.step_outcome hw hs with
    | meet j hpc => rcases hpc with ⟨-, hpc⟩ | ⟨-, hpc⟩ <;> simpa [hpc, Linked] using h
    | mark hpc | sweep hpc | lockReset hpc hf =>
      simp only [may, hpc, decide_eq_true_eq] at hmay
      simp [Linked, hmay]
    | deliver hpc =>
      rw [hpc] at h
      simp [Linked, show s.2.service = .outside from h, restarting]
    | getReady hpc hf | awaitCall hpc hw | wrlock hpc hw hr | resetFlag hpc | unlockReset hpc
    | wrunlock hpc => simpa [hpc, Linked] using h
    | _ => exact h

theorem world_linked (hw : StopTheWorld.Wf s.2) (h : Linked s.1.service s.2.service)
    {b : StopTheWorld.Action n} (hmay : may s (.inr b) = true) {w : StopTheWorld.State n}
    (hs : StopTheWorld.step s.2 b = some w) : Linked s.1.service w.service := by
  by_cases hb : b = .service
  · subst hb
    cases hr : s.1.service <;> simp only [may, hr, decide_eq_true_eq, Bool.false_eq_true] at hmay
    case stopping =>
      rw [hr] at h
      rcases service_advances hw hs with ⟨-, -, hafter, -⟩ | ⟨hstop | hrestart, -⟩
      · exact hafter
      · exact absurd hstop hmay
      · exact absurd (h.symm.trans hrestart) (by simp)
    case swept =>
      rw [hr] at h
      rcases service_advances hw hs with ⟨hbefore, hrunning, -⟩ | ⟨-, hafter⟩
      · simp [Linked, hbefore, hrunning, hmay] at h
      · exact Or.inr hafter
  · rcases handler_service hw hb hs with he | ⟨hpc, hpc'⟩
    · rwa [he]
    · rw [hpc] at h
      rw [hpc']
      cases hr : s.1.service <;> simp_all [Linked, restarting]

theorem step_linked (hr : ServiceThread.Wf s.1) (hw : StopTheWorld.Wf s.2)
    (h : Linked s.1.service s.2.service) {c : Action n} (hs : step s c = some s') :
    Linked s'.1.service s'.2.service := by
  cases c with
  | inl a =>
    obtain ⟨hmay, r, hr', rfl⟩ := pairStep_inl.mp hs
    exact request_linked hr h hmay hr'
  | inr b =>
    obtain ⟨hmay, w, hw', rfl⟩ := pairStep_inr.mp hs
    exact world_linked hw h hmay hw'

theorem reachable_linked {ok : ServiceThread.State n → ServiceThread.Action n → Prop}
    {ok' : StopTheWorld.State n → StopTheWorld.Action n → Prop}
    (h : Reachable n (both ok ok') s) : Linked s.1.service s.2.service :=
  h.invariant_of
    (fun _ hr => And.intro (ServiceThread.reachable_wf hr.fst.unguarded)
      (StopTheWorld.reachable_wf hr.snd))
    (fun _ hi => by rw [hi]; rfl)
    fun _ _ _ hwf hl _ hs => step_linked hwf.1 hwf.2 hl hs

end Linked

section Undisturbed

variable {s s' : State n}

theorem collecting_stopped (h : Reachable n NoEarlyReturn s) (hpc : s.1.service = .collecting) :
    StopTheWorld.AllStopped s.2 := by
  have hstopped : s.2.service = .stopped := by
    have hlink := reachable_linked h
    rwa [hpc] at hlink
  intro i
  have hphase := (StopTheWorld.reachable_wf h.snd).phase i
  rw [hstopped] at hphase
  refine ⟨?_, hphase.1⟩
  have hheld := (StopTheWorld.reachable_held h.snd).held (by rw [hstopped]; trivial) i
  exact StopTheWorld.inHandler_of_held hheld

/-- A step of another party during the collection is one inside `handler`. -/
theorem collecting_step (h : Reachable n NoEarlyReturn s) (hpc : s.1.service = .collecting)
    {c : Action n} (hc : c ≠ .inl .service) (hs : step s c = some s') : s'.1 = s.1 := by
  cases c with
  | inl a =>
    obtain ⟨hmay, -⟩ := pairStep_inl.mp hs
    cases a with
    | service => exact absurd rfl hc
    | thread i ok =>
      have huser : s.2.thread i = .user := by simpa [may] using hmay
      exact absurd huser (collecting_stopped h hpc i).1
  | inr b =>
    obtain ⟨-, w, -, rfl⟩ := pairStep_inr.mp hs
    rfl

/-- From the start of `mark` to the end of `sweep` all registered threads are in the handler of
this round, none of them inside an allocation, and as long as the service thread is not done
nobody takes a step of `gc_malloc` or of its own code. -/
theorem collection_undisturbed (h : Reachable n NoEarlyReturn s)
    (hpc : s.1.service = .collecting) :
    StopTheWorld.AllStopped s.2 ∧ (∀ i, (s.1.thread i).reads = false) ∧
    ∀ as s', run step NoEarlyReturn s as = some s' → .inl .service ∉ as → s'.1 = s.1 := by
  refine ⟨collecting_stopped h hpc, fun i => ?_, fun as => ?_⟩
  · have hwf := ServiceThread.reachable_wf h.fst
    have hreaders := hwf.exclusive (by simp [hpc, ServiceThread.ServicePc.writes])
    refine Bool.eq_false_of_not_eq_true fun hreads => ?_
    have hmem := (hwf.readers i).mpr hreads
    simp [hreaders] at hmem
  · induction as generalizing s with
    | nil =>
      intro s' hr _
      cases hr
      rfl
    | cons c as ih =>
      intro s' hr hnot
      simp only [run, Option.ite_none_right_eq_some, Option.bind_eq_some_iff] at hr
      obtain ⟨hok, t, hs, hr⟩ := hr
      rw [List.mem_cons, not_or] at hnot
      have hsame := collecting_step h hpc (Ne.symm hnot.1) hs
      exact (ih (.step c h hok hs) (by rw [hsame, hpc]) s' hr hnot.2).trans hsame

end Undisturbed

/-- A thread runs out of memory and meets the service thread, which signals both threads. -/
def summons (i : Fin 2) : List (Action 2) :=
  List.replicate 4 (.inl (.thread i false)) ++ List.replicate 2 (.inl .service) ++
    [.inl (.thread i false)] ++ List.replicate 2 (.inl .service) ++
    List.replicate 7 (.inr .service)

/-- Both threads come to the barrier. -/
def gathering (i j : Fin 2) : List (Action 2) :=
  [.inr (.deliver j), .inr (.deliver i), .inr (.arrive i), .inr (.arrive j), .inr .service]

theorem collection_undisturbed_two_threads :
    ∃ s : State 2, s.1.thread 0 = .passed ∧ s.1.thread 1 = .user ∧
      StopTheWorld.AllStopped s.2 ∧ step s (.inl (.thread 0 true)) = none := by
  obtain ⟨s, hr, hpc, hcaller, huser, hnone⟩ := reachable_of_run
    (ServiceThread.initial 2, StopTheWorld.initial 2)
    (summons 0 ++ gathering 0 1 ++ [.inl .service])
    (fun s => s.1.service = .collecting ∧ s.1.thread 0 = .passed ∧ s.1.thread 1 = .user ∧
      (step s (.inl (.thread 0 true))).isNone = true)
    step NoEarlyReturn (by decide)
  exact ⟨s, hcaller, huser, (collection_undisturbed hr hpc).1, by simpa using hnone⟩

structure Good (s : State n) : Prop where
  request : ServiceThread.Good s.1
  world : StopTheWorld.Smooth s.2
  linked : Linked s.1.service s.2.service

/-- All calls have returned and the world runs. -/
structure Served (s : State n) : Prop where
  request : ServiceThread.AtRest s.1
  world : StopTheWorld.Restarted s.2

/-- The collection asked for has not stopped the world yet. -/
def upcoming (s : State n) : Nat :=
  if s.1.service = .stopping ∧ s.2.service = .outside then 24 * n + 12 else 0

/-- Each step of the request protocol may have to wait for a whole handshake. -/
def stepsLeft (s : State n) : Nat :=
  (24 * n + 13) * ServiceThread.stepsLeft s.1 + upcoming s + StopTheWorld.stepsLeft s.2

theorem upcoming_le (s : State n) : upcoming s ≤ 24 * n + 12 := by
  rw [upcoming]
  split
  · exact le_refl _
  · exact Nat.zero_le _

theorem stepsLeft_le (s : State n) : stepsLeft s ≤ (24 * n + 13) * (19 * n + 12) := by
  have hrequest := Nat.mul_le_mul_left (24 * n + 13) (ServiceThread.stepsLeft_le s.1)
  have hworld := StopTheWorld.stepsLeft_le s.2
  have hupcoming := upcoming_le s
  calc stepsLeft s ≤ (24 * n + 13) * (19 * n + 10) + (24 * n + 12) + (24 * n + 11) := by
        rw [stepsLeft]
        omega
    _ ≤ (24 * n + 13) * (19 * n + 10) + 2 * (24 * n + 13) := by omega
    _ = (24 * n + 13) * (19 * n + 12) := by ring

section Progress

variable {s s' : State n}

theorem Good.stepped (h : Good s) {c : Action n} (hok : AfterStragglers s c)
    (hs : step s c = some s') : Good s' where
  linked := step_linked h.request.wf h.world.wf h.linked hs
  request := by
    cases c with
    | inl a =>
      obtain ⟨-, r, hr, rfl⟩ := pairStep_inl.mp hs
      exact h.request.stepped hr
    | inr b =>
      obtain ⟨-, w, -, rfl⟩ := pairStep_inr.mp hs
      exact h.request
  world := by
    cases c with
    | inl a =>
      obtain ⟨-, r, -, rfl⟩ := pairStep_inl.mp hs
      exact h.world
    | inr b =>
      obtain ⟨-, w, hw, rfl⟩ := pairStep_inr.mp hs
      exact h.world.stepped hok hw

theorem reachable_good (h : Reachable n AfterStragglers s) : Good s where
  request := ServiceThread.reachable_good h.fst
  world := StopTheWorld.reachable_smooth h.snd
  linked := reachable_linked h

theorem Good.request_lower (h : Good s) {a : ServiceThread.Action n}
    (hok : ServiceThread.NoNewCall s.1 a) {r : ServiceThread.State n}
    (hs : ServiceThread.step s.1 a = some r) : stepsLeft (r, s.2) < stepsLeft s := by
  have hlt := ServiceThread.descends.lower _ _ _ h.request hok hs
  have hmul := Nat.mul_le_mul_left (24 * n + 13) (Nat.succ_le_of_lt hlt)
  have hupcoming := upcoming_le (r, s.2)
  rw [Nat.mul_succ] at hmul
  simp only [stepsLeft]
  omega

/-- A step that does not begin a round leaves no more rounds to come. -/
theorem Good.upcoming_kept (h : Good s) {b : StopTheWorld.Action n}
    (hmay : may s (.inr b) = true) {w : StopTheWorld.State n}
    (hs : StopTheWorld.step s.2 b = some w) : upcoming (s.1, w) ≤ upcoming s := by
  by_cases hafter : s.1.service = .stopping ∧ w.service = .outside
  · obtain ⟨hpc, hout⟩ := hafter
    have hlink := h.linked
    rw [hpc] at hlink
    have hbefore : s.2.service = .outside := by
      by_cases hb : b = .service
      · subst hb
        simp only [may, hpc, decide_eq_true_eq] at hmay
        rcases service_advances h.world.wf hs with ⟨-, -, -, hne⟩ | ⟨hstop | hrestart, -⟩
        · exact absurd hout hne
        · exact absurd hstop hmay
        · exact absurd (hlink.symm.trans hrestart) (by simp)
      · rcases handler_service h.world.wf hb hs with he | ⟨-, hpassed⟩
        · exact he.symm.trans hout
        · simp [hout] at hpassed
    simp [upcoming, hpc, hout, hbefore]
  · rw [upcoming, if_neg hafter]
    exact Nat.zero_le _

theorem Good.world_lower (h : Good s) {b : StopTheWorld.Action n}
    (hmay : may s (.inr b) = true) (hok : StopTheWorld.AfterStragglers s.2 b)
    {w : StopTheWorld.State n} (hs : StopTheWorld.step s.2 b = some w) :
    stepsLeft (s.1, w) < stepsLeft s := by
  by_cases hbegin : b = .service ∧ s.2.service = .outside
  · obtain ⟨rfl, hout⟩ := hbegin
    have hpc : s.1.service = .stopping := by
      cases hr : s.1.service <;> simp_all [may]
    have hcounted : w.service = .counted := by
      simp only [StopTheWorld.step, StopTheWorld.serviceStep, hout] at hs
      cases hs
      rfl
    have hupcoming : upcoming s = 24 * n + 12 := by simp [upcoming, hpc, hout]
    have hnone : upcoming (s.1, w) = 0 := by simp [upcoming, hcounted]
    have hworld := StopTheWorld.stepsLeft_le w
    simp only [stepsLeft, hupcoming, hnone]
    omega
  · have hround : b = .service → s.2.service ≠ .outside := fun hb hout => hbegin ⟨hb, hout⟩
    have hlt := h.world.lower ⟨hok, hround⟩ hs
    have hupcoming := h.upcoming_kept hmay hs
    simp only [stepsLeft]
    omega

theorem descends : Descends step NoNewCall (Good (n := n)) stepsLeft where
  keep := by
    intro s c s' h hok hs
    refine h.stepped ?_ hs
    cases c with
    | inl a => trivial
    | inr b => exact hok
  lower := by
    intro s c s' h hok hs
    cases c with
    | inl a =>
      obtain ⟨-, r, hr, rfl⟩ := pairStep_inl.mp hs
      exact h.request_lower hok hr
    | inr b =>
      obtain ⟨hmay, w, hw, rfl⟩ := pairStep_inr.mp hs
      exact h.world_lower hmay hok hw

/-- Inside a round the handshake is never held up by the request protocol. -/
theorem Good.world_final (h : Good s) (hfinal : Final step NoLuck s) :
    Final StopTheWorld.step StopTheWorld.NoLuck s.2 := by
  intro b hok
  have hnone := hfinal (.inr b) ⟨hok.1.1, hok.2⟩
  by_cases hb : b = .service
  · subst hb
    refine pairStep_inr_none hnone ?_
    have hout := hok.1.2 rfl
    have hlink := h.linked
    have hservice := hfinal (.inl .service) trivial
    cases hpc : s.1.service <;> rw [hpc] at hlink
    case stopping =>
      -- at `stopped` it would be the turn of `mark`
      have hmoving : s.2.service ≠ .stopped := by
        intro hstop
        have hstuck := pairStep_inl_none hservice (by simp [may, hpc, hstop])
        simp [ServiceThread.step, ServiceThread.serviceStep, hpc] at hstuck
      simp [may, hpc, hmoving]
    case collecting =>
      have hstop : s.2.service = .stopped := hlink
      have hstuck := pairStep_inl_none hservice (by simp [may, hpc, hstop])
      simp [ServiceThread.step, ServiceThread.serviceStep, hpc] at hstuck
    case swept => simp [may, hpc, hout]
    all_goals exact absurd hlink hout
  · refine pairStep_inr_none hnone ?_
    cases b with
    | service => exact absurd rfl hb
    | _ => rfl

/-- Outside of a round the request protocol is never held up by the handshake. -/
theorem Good.request_final (h : Good s) (hfinal : Final step NoLuck s)
    (hrestarted : StopTheWorld.Restarted s.2) :
    Final ServiceThread.step ServiceThread.NoNewCall s.1 := by
  intro a hok
  refine pairStep_inl_none (hfinal (.inl a) hok) ?_
  cases a with
  | thread i ok => simp [may, (hrestarted.users i).1]
  | service =>
    have hlink := h.linked
    have hout := hrestarted.service
    cases hpc : s.1.service
    case stopping =>
      -- it is the turn of `stop_the_world`
      have hbegin := hfinal (.inr .service) ⟨fun _ hcounted => by simp [hout] at hcounted, by simp⟩
      have hstuck := pairStep_inr_none hbegin (by simp [may, hpc, hout])
      simp [StopTheWorld.step, StopTheWorld.serviceStep, hout] at hstuck
    case collecting =>
      rw [hpc] at hlink
      exact absurd (hout.symm.trans hlink) (by simp)
    all_goals simp [may, hpc, hout]

theorem Good.served (h : Good s) (hfinal : Final step NoLuck s) : Served s := by
  have hrestarted := h.world.restarted (h.world_final hfinal)
  exact ⟨h.request.atRest (h.request_final hfinal hrestarted), hrestarted⟩

theorem noNewCall_of_noLuck (s : State n) (c : Action n) (hok : NoLuck s c) : NoNewCall s c := by
  cases c with
  | inl a => exact hok
  | inr b => exact hok.1

end Progress

/-- From every reachable state, all calls of `gc_malloc` in progress return within a bounded
number of steps of all parties, with the world running: no run in which no new call begins is
longer, and one that could only go on when a thread wakes up by itself is over. -/
theorem collections_let_go {s : State n} (h : Reachable n AfterStragglers s) :
    (∀ as s', run step NoNewCall s as = some s' →
      as.length ≤ (24 * n + 13) * (19 * n + 12) ∧ (Final step NoLuck s' → Served s')) ∧
    ∃ as s', run step NoLuck s as = some s' ∧ Served s' := by
  obtain ⟨hall, hsome⟩ := descends.rests noNewCall_of_noLuck
    (fun _ hg hfinal => hg.served hfinal) (reachable_good h)
  refine ⟨fun as s' hr => ?_, hsome⟩
  obtain ⟨hle, hrest⟩ := hall as s' hr
  exact ⟨hle.trans (stepsLeft_le s), hrest⟩

theorem collections_let_go_signalled :
    ∃ (s : State 2) (as : List (Action 2)) (s' : State 2), s.1.service = .stopping ∧
      s.2.service = .atBarrier ∧ run step NoLuck s as = some s' ∧ Served s' := by
  obtain ⟨s, hr, hpc, hwaits⟩ := reachable_of_run
    (ServiceThread.initial 2, StopTheWorld.initial 2) (summons 0)
    (fun s => s.1.service = .stopping ∧ s.2.service = .atBarrier) step AfterStragglers (by decide)
  obtain ⟨as, s', hrun, hserved⟩ := (collections_let_go hr).2
  exact ⟨s, as, s', hpc, hwaits, hrun, hserved⟩

end GarbageCollector.WholeProtocol
