import GarbageCollector.ConcurrentAlloc
import GarbageCollector.RequestProgress
import GarbageCollector.Simulation

/-!
# Allocation under the read lock

Threads that run `gc_malloc` together with the service thread: the request protocol and the steps
of `allocate_small_object` in one system. A collection takes several steps of the service thread,
which clears the caches, lets `mark` set any mark bits and sweeps. Because of `allocation_lock`
this is a run of the model in which a collection is one step.
-/

namespace GarbageCollector.LockedCollection

open Transition

variable {n : Nat}

structure State (n : Nat) where
  protocol : ServiceThread.State n
  alloc : ConcurrentAlloc.State n
  /-- The argument of the thread's last call of `gc_malloc`. -/
  request : Fin n → Nat

inductive Action (n : Nat) where
  /-- `gc_malloc(size)` is called and its first attempt takes the read lock. -/
  | call (i : Fin n) (size : Nat)
  /-- A step of `allocate_small_object`. -/
  | work (i : Fin n)
  /-- The attempt is over and the read lock released; `ok` is the outcome for a large size. -/
  | unlock (i : Fin n) (ok : Bool)
  /-- The second attempt takes the read lock. -/
  | retry (i : Fin n)
  /-- A step of `call_service_thread`. -/
  | caller (i : Fin n)
  /-- A step of the service thread; `mark` sets the mark bits to those of `marks`. -/
  | service (marks : Bytes.Mem)

variable (cfg : Config)

/-- The large allocator touches nothing of the small heap. -/
def enter (a : ConcurrentAlloc.State n) (i : Fin n) (size : Nat) : ConcurrentAlloc.State n :=
  if size ≤ maxObjectSize then ConcurrentAlloc.goto a i (.enter size) else a

/-- The return of an attempt for `size`, with its success. -/
def leave (a : ConcurrentAlloc.State n) (i : Fin n) (size : Nat) (ok : Bool) :
    Option (ConcurrentAlloc.State n × Bool) :=
  if size ≤ maxObjectSize then
    match (a.thread i).pc with
    | .returned _ res => some (ConcurrentAlloc.goto a i .idle, res.isSome)
    | _ => none
  else some (a, ok)

/-- `handler` clears the caches of all threads and `mark` sets the mark bits. -/
def stopAndMark (a : ConcurrentAlloc.State n) (marks : Bytes.Mem) : ConcurrentAlloc.State n :=
  { a with
    heap := a.heap.setMem (ConcurrentAlloc.remark cfg a.heap.mem marks)
    thread := fun t => { a.thread t with nodesCache := clearCache (a.thread t).nodesCache } }

/-- `sweep_small_heap`, with the record of what it read. -/
def sweepAll (a : ConcurrentAlloc.State n) : ConcurrentAlloc.State n :=
  { a with
    heap := sweepSmallHeap cfg a.heap
    returned := []
    sweptMem := a.heap.mem }

/-- What a step of the service thread does to the small heap and the caches. -/
def serve (a : ConcurrentAlloc.State n) (marks : Bytes.Mem) :
    ServiceThread.ServicePc → ConcurrentAlloc.State n
  | .stopping => stopAndMark cfg a marks
  | .collecting => sweepAll cfg a
  | _ => a

def step (s : State n) : Action n → Option (State n)
  | .call i size =>
    if s.protocol.thread i = .user ∧ 1 ≤ size ∧ size ≤ cfg.heapSize then
      (ServiceThread.step s.protocol (.thread i true)).map fun p =>
        ⟨p, enter s.alloc i size, Function.update s.request i size⟩
    else none
  | .work i => (ConcurrentAlloc.step cfg s.alloc (.step i)).map fun a => { s with alloc := a }
  | .unlock i ok =>
    if (s.protocol.thread i).reads = true then
      (leave s.alloc i (s.request i) ok).bind fun r =>
        (ServiceThread.step s.protocol (.thread i r.2)).map fun p =>
          { s with protocol := p, alloc := r.1 }
    else none
  | .retry i =>
    if s.protocol.thread i = .retrying then
      (ServiceThread.step s.protocol (.thread i true)).map fun p =>
        { s with protocol := p, alloc := enter s.alloc i (s.request i) }
    else none
  | .caller i =>
    if s.protocol.thread i ≠ .user ∧ s.protocol.thread i ≠ .retrying ∧
        (s.protocol.thread i).reads = false then
      (ServiceThread.step s.protocol (.thread i true)).map fun p => { s with protocol := p }
    else none
  | .service marks =>
    (ServiceThread.step s.protocol .service).map fun p =>
      { s with protocol := p, alloc := serve cfg s.alloc marks s.protocol.service }

def Start (n : Nat) (s : State n) : Prop :=
  s.protocol = ServiceThread.initial n ∧ ConcurrentAlloc.Start cfg n s.alloc

abbrev Reachable (n : Nat) : State n → Prop :=
  Transition.Reachable (Start cfg n) (step cfg) anyStep

theorem protocol_step {s s' : State n} {a : Action n} (hs : step cfg s a = some s') :
    s'.protocol = s.protocol ∨ ∃ b, ServiceThread.step s.protocol b = some s'.protocol := by
  cases a with
  | call i size | retry i | caller i =>
    simp only [step, Option.ite_none_right_eq_some, Option.map_eq_some_iff] at hs
    obtain ⟨-, p, hp, rfl⟩ := hs
    exact Or.inr ⟨_, hp⟩
  | work i =>
    simp only [step, Option.map_eq_some_iff] at hs
    obtain ⟨a, -, rfl⟩ := hs
    exact Or.inl rfl
  | unlock i ok =>
    simp only [step, Option.ite_none_right_eq_some, Option.bind_eq_some_iff,
      Option.map_eq_some_iff] at hs
    obtain ⟨-, r, -, p, hp, rfl⟩ := hs
    exact Or.inr ⟨_, hp⟩
  | service marks =>
    simp only [step, Option.map_eq_some_iff] at hs
    obtain ⟨p, hp, rfl⟩ := hs
    exact Or.inr ⟨_, hp⟩

theorem protocol_simulates : Simulates (Start cfg n) (step cfg) anyStep
    (· = ServiceThread.initial n) ServiceThread.step anyStep (fun _ => True)
    (fun s p => s.protocol = p) where
  start := fun s hs => ⟨_, rfl, hs.1⟩
  step := by
    rintro s a s' p - rfl - hs
    rcases protocol_step cfg hs with hsame | ⟨b, hb⟩
    · exact Or.inl hsame
    · exact Or.inr ⟨b, _, trivial, hb, rfl⟩

variable {cfg}

theorem reachable_protocol {s : State n} (h : Reachable cfg n s) :
    ServiceThread.Reachable n s.protocol := by
  obtain ⟨p, hp, rfl⟩ := (protocol_simulates cfg).reachable (fun _ _ => trivial) h
  exact hp

section Protocol

variable {p p' : ServiceThread.State n} {i j : Fin n} {ok : Bool}

theorem others_kept (hw : ServiceThread.Wf p) (hs : ServiceThread.step p (.thread i ok) = some p')
    (hj : j ≠ i) (hreads : (p.thread j).reads = true) : p'.thread j = p.thread j := by
  refine ServiceThread.thread_kept hw hs ?_ ?_
  · rintro ok' he
    cases he
    exact hj rfl
  · intro hbarrier
    rw [hbarrier] at hreads
    cases hreads

/-- Taking the read lock. -/
theorem enters (hpc : p.thread i = .user ∨ p.thread i = .retrying)
    (hs : ServiceThread.step p (.thread i ok) = some p') :
    p.allocationLock.writer = none ∧ (p'.thread i).reads = true ∧ p'.thread i ≠ .user := by
  simp only [ServiceThread.step, ServiceThread.threadStep, ServiceThread.setThread] at hs
  rcases hpc with hpc | hpc
  all_goals
    simp only [hpc, Option.map_eq_some_iff, Sync.RwLock.rdlock_eq_some] at hs
    obtain ⟨l, ⟨hwriter, -⟩, rfl⟩ := hs
    exact ⟨hwriter, by simp [ServiceThread.CallerPc.reads], by simp⟩

theorem no_reader (hw : ServiceThread.Wf p) (hwrites : p.service.writes = true) (i : Fin n) :
    (p.thread i).reads = false := by
  refine Bool.eq_false_of_not_eq_true fun hreads => ?_
  have hmem := (hw.readers i).mpr hreads
  rw [hw.exclusive hwrites] at hmem
  cases hmem

theorem served (hs : ServiceThread.step p .service = some p') :
    (p.service = .stopping ∧ p'.service = .collecting) ∨
      (p.service = .collecting ∧ p'.service = .swept) ∨
      (p.service ≠ .stopping ∧ p.service ≠ .collecting ∧ p'.service ≠ .collecting) := by
  simp only [ServiceThread.step, ServiceThread.serviceStep] at hs
  cases hpc : p.service <;> simp only [hpc] at hs
  case ready =>
    cases hs
    refine Or.inr (Or.inr ⟨by simp, by simp, ?_⟩)
    simp only [ServiceThread.barrierWait]
    split <;> simp
  case summoned =>
    obtain ⟨l, -, rfl⟩ := Option.map_eq_some_iff.mp hs
    simp
  case waiting | swept =>
    split at hs <;> cases hs
    simp
  all_goals cases hs
  all_goals simp

end Protocol

structure Inside (s : State n) : Prop where
  working : ∀ i, (s.alloc.thread i).pc ≠ .idle → (s.protocol.thread i).reads = true
  sizes : ∀ i, s.protocol.thread i ≠ .user → 1 ≤ s.request i
  large : ∀ i, maxObjectSize < s.request i → (s.alloc.thread i).pc = .idle

theorem enter_thread (a : ConcurrentAlloc.State n) {i j : Fin n} (size : Nat) (hj : j ≠ i) :
    (enter a i size).thread j = a.thread j := by
  rw [enter]
  split
  · exact Function.update_of_ne hj _ _
  · rfl

theorem leave_thread {a b : ConcurrentAlloc.State n} {i j : Fin n} {size : Nat} {ok ok' : Bool}
    (h : leave a i size ok = some (b, ok')) (hj : j ≠ i) : b.thread j = a.thread j := by
  rw [leave] at h
  split at h
  · split at h <;> cases h
    exact Function.update_of_ne hj _ _
  · cases h
    rfl

theorem serve_pc (a : ConcurrentAlloc.State n) (marks : Bytes.Mem) (pc : ServiceThread.ServicePc)
    (i : Fin n) : ((serve cfg a marks pc).thread i).pc = (a.thread i).pc := by
  cases pc <;> rfl

section Kept

variable {s s' : State n} {i : Fin n}

theorem Inside.idle (h : Inside s) (hreads : (s.protocol.thread i).reads = false) :
    (s.alloc.thread i).pc = .idle := by
  by_contra hpc
  rw [h.working i hpc] at hreads
  cases hreads

/-- A step of thread `i` in the protocol, with what it does to its own allocator. -/
theorem Inside.own {p : ServiceThread.State n} {a : ConcurrentAlloc.State n} {r : Fin n → Nat}
    {ok : Bool} (h : Inside s) (hw : ServiceThread.Wf s.protocol)
    (hp : ServiceThread.step s.protocol (.thread i ok) = some p)
    (halloc : ∀ j, j ≠ i → a.thread j = s.alloc.thread j)
    (hrequest : ∀ j, j ≠ i → r j = s.request j)
    (hself : (a.thread i).pc ≠ .idle → (p.thread i).reads = true)
    (hsize : p.thread i ≠ .user → 1 ≤ r i)
    (hlarge : maxObjectSize < r i → (a.thread i).pc = .idle) : Inside ⟨p, a, r⟩ where
  working := by
    intro j hpc
    by_cases hj : j = i
    · subst hj
      exact hself hpc
    · rw [halloc j hj] at hpc
      have hreads := h.working j hpc
      rw [others_kept hw hp hj hreads, hreads]
  sizes := by
    intro j hpc
    by_cases hj : j = i
    · subst hj
      exact hsize hpc
    · show 1 ≤ r j
      rw [hrequest j hj]
      refine h.sizes j fun huser => hpc ?_
      show p.thread j = .user
      rw [ServiceThread.thread_kept hw hp ?_ (by simp [huser]), huser]
      rintro ok' he
      cases he
      exact hj rfl
  large := by
    intro j hlt
    by_cases hj : j = i
    · subst hj
      exact hlarge hlt
    · show (a.thread j).pc = .idle
      rw [halloc j hj]
      exact h.large j (hrequest j hj ▸ hlt)

theorem Inside.entered {p : ServiceThread.State n} {r : Fin n → Nat} {ok : Bool} (h : Inside s)
    (hw : ServiceThread.Wf s.protocol)
    (hpc : s.protocol.thread i = .user ∨ s.protocol.thread i = .retrying)
    (hp : ServiceThread.step s.protocol (.thread i ok) = some p)
    (hrequest : ∀ j, j ≠ i → r j = s.request j) (hsize : 1 ≤ r i) :
    Inside ⟨p, enter s.alloc i (r i), r⟩ := by
  have hreads := (enters hpc hp).2.1
  have hidle : (s.alloc.thread i).pc = .idle := h.idle (by
    rcases hpc with hpc | hpc <;> rw [hpc] <;> rfl)
  refine h.own hw hp (fun j hj => enter_thread _ _ hj) hrequest (fun _ => hreads)
    (fun _ => hsize) fun hlt => ?_
  rw [enter, if_neg (not_le.mpr hlt)]
  exact hidle

theorem Inside.left {p : ServiceThread.State n} {a : ConcurrentAlloc.State n} {ok ok' : Bool}
    (h : Inside s) (hw : ServiceThread.Wf s.protocol)
    (hreads : (s.protocol.thread i).reads = true)
    (hleave : leave s.alloc i (s.request i) ok = some (a, ok'))
    (hp : ServiceThread.step s.protocol (.thread i ok') = some p) :
    Inside ⟨p, a, s.request⟩ := by
  have hidle : (a.thread i).pc = .idle := by
    rw [leave] at hleave
    split at hleave
    · split at hleave <;> cases hleave
      simp [ConcurrentAlloc.goto]
    · rename_i hlarge
      cases hleave
      exact h.large i (not_le.mp hlarge)
  refine h.own hw hp (fun j hj => leave_thread hleave hj) (fun _ _ => rfl)
    (fun hpc => absurd hidle hpc) (fun _ => h.sizes i ?_) fun _ => hidle
  intro huser
  rw [huser] at hreads
  cases hreads

theorem Inside.called {p : ServiceThread.State n} {ok : Bool} (h : Inside s)
    (hw : ServiceThread.Wf s.protocol) (huser : s.protocol.thread i ≠ .user)
    (hreads : (s.protocol.thread i).reads = false)
    (hp : ServiceThread.step s.protocol (.thread i ok) = some p) :
    Inside ⟨p, s.alloc, s.request⟩ :=
  h.own hw hp (fun _ _ => rfl) (fun _ _ => rfl) (fun hpc => absurd (h.idle hreads) hpc)
    (fun _ => h.sizes i huser) (h.large i)

theorem working_of_step {a : ConcurrentAlloc.State n}
    (ha : ConcurrentAlloc.step cfg s.alloc (.step i) = some a) :
    (s.alloc.thread i).pc ≠ .idle ∧ ∀ j, j ≠ i → a.thread j = s.alloc.thread j := by
  simp only [ConcurrentAlloc.step, Option.map_eq_some_iff] at ha
  obtain ⟨q, hq, rfl⟩ := ha
  refine ⟨fun hidle => ?_, fun j hj => Function.update_of_ne hj _ _⟩
  simp [localStep, hidle] at hq

theorem Inside.worked {a : ConcurrentAlloc.State n} (h : Inside s)
    (ha : ConcurrentAlloc.step cfg s.alloc (.step i) = some a) :
    Inside { s with alloc := a } := by
  obtain ⟨hbusy, hothers⟩ := working_of_step ha
  refine ⟨fun j hpc => ?_, h.sizes, fun j hlt => ?_⟩
  · by_cases hj : j = i
    · exact hj ▸ h.working i hbusy
    · exact h.working j (hothers j hj ▸ hpc)
  · by_cases hj : j = i
    · subst hj
      exact absurd (h.large j hlt) hbusy
    · show (a.thread j).pc = .idle
      rw [hothers j hj]
      exact h.large j hlt

theorem Inside.serviced {p : ServiceThread.State n} {marks : Bytes.Mem} (h : Inside s)
    (hw : ServiceThread.Wf s.protocol) (hp : ServiceThread.step s.protocol .service = some p) :
    Inside { s with protocol := p, alloc := serve cfg s.alloc marks s.protocol.service } where
  working := by
    intro j hpc
    rw [serve_pc] at hpc
    have hreads := h.working j hpc
    show (p.thread j).reads = true
    rw [ServiceThread.thread_kept hw hp (by simp) ?_, hreads]
    intro hbarrier
    rw [hbarrier] at hreads
    cases hreads
  sizes := by
    intro j hpc
    refine h.sizes j fun huser => hpc ?_
    show p.thread j = .user
    rw [ServiceThread.thread_kept hw hp (by simp) (by simp [huser]), huser]
  large := by
    intro j hlt
    rw [serve_pc]
    exact h.large j hlt

theorem Inside.stepped {a : Action n} (h : Inside s) (hw : ServiceThread.Wf s.protocol)
    (hs : step cfg s a = some s') : Inside s' := by
  cases a with
  | call i size =>
    simp only [step, Option.ite_none_right_eq_some, Option.map_eq_some_iff] at hs
    obtain ⟨⟨huser, hpos, -⟩, p, hp, rfl⟩ := hs
    have hself : Function.update s.request i size i = size := Function.update_self _ _ _
    have hin := h.entered hw (r := Function.update s.request i size) (Or.inl huser) hp
      (fun j hj => Function.update_of_ne hj _ _) (by rwa [hself])
    rwa [hself] at hin
  | work i =>
    simp only [step, Option.map_eq_some_iff] at hs
    obtain ⟨a, ha, rfl⟩ := hs
    exact h.worked ha
  | unlock i ok =>
    simp only [step, Option.ite_none_right_eq_some, Option.bind_eq_some_iff,
      Option.map_eq_some_iff] at hs
    obtain ⟨hreads, ⟨a, ok'⟩, hleave, p, hp, rfl⟩ := hs
    exact h.left hw hreads hleave hp
  | retry i =>
    simp only [step, Option.ite_none_right_eq_some, Option.map_eq_some_iff] at hs
    obtain ⟨hretrying, p, hp, rfl⟩ := hs
    exact h.entered hw (Or.inr hretrying) hp (fun _ _ => rfl) (h.sizes i (by simp [hretrying]))
  | caller i =>
    simp only [step, Option.ite_none_right_eq_some, Option.map_eq_some_iff] at hs
    obtain ⟨⟨huser, -, hreads⟩, p, hp, rfl⟩ := hs
    exact h.called hw huser hreads hp
  | service marks =>
    simp only [step, Option.map_eq_some_iff] at hs
    obtain ⟨p, hp, rfl⟩ := hs
    exact h.serviced hw hp

theorem start_inside (h : Start cfg n s) : Inside s := by
  obtain ⟨hp, m, -, ha⟩ := h
  refine ⟨fun i hpc => ?_, fun i hpc => ?_, fun i _ => ?_⟩
  · rw [ha] at hpc
    exact absurd rfl hpc
  · rw [hp] at hpc
    exact absurd rfl hpc
  · rw [ha]
    rfl

end Kept

/-- The lock protocol is in one of its states, and only threads with the read lock allocate. -/
theorem reachable_inside {s : State n} (h : Reachable cfg n s) :
    ServiceThread.Wf s.protocol ∧ Inside s := by
  refine ⟨ServiceThread.reachable_wf (reachable_protocol h), ?_⟩
  exact h.invariant_of (fun _ hr => ServiceThread.reachable_wf (reachable_protocol hr))
    (fun _ hi => start_inside hi) fun _ _ _ hw hi _ hs => hi.stepped hw hs

/-- While a collection is between `mark` and the end of `sweep`, the abstract state is still the
one before it. -/
structure Refines (cfg : Config) (s : State n) (a : ConcurrentAlloc.State n) : Prop where
  outside : s.protocol.service ≠ .collecting → s.alloc = a
  during : s.protocol.service = .collecting →
    (∀ t, (a.thread t).pc = .idle) ∧ ∃ marks, s.alloc = stopAndMark cfg a marks

section Refinement

variable {s s' : State n} {a : ConcurrentAlloc.State n} {i : Fin n}

/-- A thread that takes the read lock does so outside a collection. -/
theorem not_collecting (hw : ServiceThread.Wf s.protocol)
    (hfree : s.protocol.allocationLock.writer = none) : s.protocol.service ≠ .collecting := by
  intro hpc
  have hwrites := hw.writer.mp hfree
  rw [hpc] at hwrites
  cases hwrites

theorem not_collecting_of_reads (hw : ServiceThread.Wf s.protocol)
    (hreads : (s.protocol.thread i).reads = true) : s.protocol.service ≠ .collecting := by
  intro hpc
  rw [no_reader hw (by rw [hpc]; rfl) i] at hreads
  cases hreads

/-- The step of a caller that leaves the allocator alone. -/
theorem Refines.caller (h : Refines cfg s a) (hw : ServiceThread.Wf s.protocol)
    {p : ServiceThread.State n} {ok : Bool} {r : Fin n → Nat}
    (hp : ServiceThread.step s.protocol (.thread i ok) = some p) :
    Refines cfg ⟨p, s.alloc, r⟩ a := by
  rcases ServiceThread.thread_service hw hp with hsame | ⟨hpc, hpc'⟩
  · exact ⟨fun hne => h.outside (hsame ▸ hne), fun he => h.during (hsame ▸ he)⟩
  · refine ⟨fun _ => h.outside (by simp [hpc]), fun he => ?_⟩
    rw [hpc'] at he
    cases he

/-- Outside a collection both states are the same, and a caller cannot change that. -/
theorem Refines.same {p : ServiceThread.State n} {ok : Bool} {r : Fin n → Nat}
    (hw : ServiceThread.Wf s.protocol)
    (hp : ServiceThread.step s.protocol (.thread i ok) = some p)
    (hpc : s.protocol.service ≠ .collecting) : Refines cfg ⟨p, a, r⟩ a := by
  refine ⟨fun _ => rfl, fun he => ?_⟩
  rcases ServiceThread.thread_service hw hp with hsame | ⟨-, hpc'⟩
  · exact absurd (hsame ▸ he) hpc
  · rw [hpc'] at he
    cases he

theorem Refines.entered (h : Refines cfg s a) (hw : ServiceThread.Wf s.protocol)
    (hin : Inside s) {p : ServiceThread.State n} {ok : Bool} {r : Fin n → Nat}
    (hpc : s.protocol.thread i = .user ∨ s.protocol.thread i = .retrying)
    (hp : ServiceThread.step s.protocol (.thread i ok) = some p) (hsize : 1 ≤ r i) :
    Refines cfg ⟨p, enter s.alloc i (r i), r⟩ a ∨
      ∃ b, ConcurrentAlloc.step cfg a (.call i (r i)) = some b ∧
        Refines cfg ⟨p, enter s.alloc i (r i), r⟩ b := by
  have hout := not_collecting hw (enters hpc hp).1
  have hidle : (s.alloc.thread i).pc = .idle := hin.idle (by
    rcases hpc with hpc | hpc <;> rw [hpc] <;> rfl)
  rw [h.outside hout] at hidle ⊢
  by_cases hsmall : r i ≤ maxObjectSize
  · rw [enter, if_pos hsmall]
    refine Or.inr ⟨ConcurrentAlloc.goto a i (.enter (r i)), ?_, Refines.same hw hp hout⟩
    simp only [ConcurrentAlloc.step, if_pos (And.intro hidle (And.intro hsize hsmall))]
  · rw [enter, if_neg hsmall]
    exact Or.inl (Refines.same hw hp hout)

theorem Refines.left (h : Refines cfg s a) (hw : ServiceThread.Wf s.protocol)
    {p : ServiceThread.State n} {b : ConcurrentAlloc.State n} {ok ok' : Bool}
    (hreads : (s.protocol.thread i).reads = true)
    (hleave : leave s.alloc i (s.request i) ok = some (b, ok'))
    (hp : ServiceThread.step s.protocol (.thread i ok') = some p) :
    Refines cfg ⟨p, b, s.request⟩ a ∨
      ∃ c, ConcurrentAlloc.step cfg a (.ret i) = some c ∧ Refines cfg ⟨p, b, s.request⟩ c := by
  have hout := not_collecting_of_reads hw hreads
  rw [h.outside hout, leave] at hleave
  split at hleave
  · split at hleave <;> cases hleave
    rename_i hpc
    refine Or.inr ⟨_, ?_, Refines.same hw hp hout⟩
    simp only [ConcurrentAlloc.step, hpc]
  · cases hleave
    exact Or.inl (Refines.same hw hp hout)

theorem Refines.worked (h : Refines cfg s a) (hw : ServiceThread.Wf s.protocol) (hin : Inside s)
    {b : ConcurrentAlloc.State n}
    (hb : ConcurrentAlloc.step cfg s.alloc (.step i) = some b) :
    ConcurrentAlloc.step cfg a (.step i) = some b ∧ Refines cfg { s with alloc := b } b := by
  have hout := not_collecting_of_reads hw (hin.working i (working_of_step hb).1)
  refine ⟨h.outside hout ▸ hb, fun _ => rfl, fun he => absurd he hout⟩

/-- The sweep is where the abstract collection happens. -/
theorem sweepAll_collect (marks : Bytes.Mem) (hidle : ∀ t, (a.thread t).pc = .idle) :
    ConcurrentAlloc.step cfg a (.collect marks) =
      some (sweepAll cfg (stopAndMark cfg a marks)) := by
  simp only [ConcurrentAlloc.step, sweepAll, stopAndMark, hidle, implies_true, if_true,
    SmallHeap.setMem_mem]

theorem Refines.serviced (h : Refines cfg s a) (hw : ServiceThread.Wf s.protocol) (hin : Inside s)
    {p : ServiceThread.State n} {marks : Bytes.Mem}
    (hp : ServiceThread.step s.protocol .service = some p) :
    Refines cfg ⟨p, serve cfg s.alloc marks s.protocol.service, s.request⟩ a ∨
      ∃ m b, ConcurrentAlloc.step cfg a (.collect m) = some b ∧
        Refines cfg ⟨p, serve cfg s.alloc marks s.protocol.service, s.request⟩ b := by
  rcases served hp with ⟨hpc, hpc'⟩ | ⟨hpc, hpc'⟩ | ⟨hstop, hcollect, hpc'⟩
  · have hsame := h.outside (by simp [hpc])
    refine Or.inl ⟨fun hne => absurd hpc' hne, fun _ => ⟨fun t => ?_, marks, ?_⟩⟩
    · rw [← hsame]
      exact hin.idle (no_reader hw (by rw [hpc]; rfl) t)
    · rw [hpc, hsame]
      rfl
  · obtain ⟨hidle, m, hmarked⟩ := h.during hpc
    refine Or.inr ⟨m, _, sweepAll_collect m hidle, fun _ => ?_, fun he => ?_⟩
    · rw [hpc, hmarked]
      rfl
    · rw [hpc'] at he
      cases he
  · refine Or.inl ⟨fun _ => ?_, fun he => absurd he hpc'⟩
    rw [← h.outside hcollect]
    cases hservice : s.protocol.service <;> first | rfl | contradiction

theorem Refines.stepped {x : Action n} (h : Refines cfg s a) (hw : ServiceThread.Wf s.protocol)
    (hin : Inside s) (hs : step cfg s x = some s') :
    Refines cfg s' a ∨ ∃ y b, ConcurrentAlloc.step cfg a y = some b ∧ Refines cfg s' b := by
  cases x with
  | call i size =>
    simp only [step, Option.ite_none_right_eq_some, Option.map_eq_some_iff] at hs
    obtain ⟨⟨huser, hpos, -⟩, p, hp, rfl⟩ := hs
    have hself : Function.update s.request i size i = size := Function.update_self _ _ _
    have hent := h.entered hw hin (r := Function.update s.request i size) (Or.inl huser) hp
      (by rwa [hself])
    rw [hself] at hent
    exact hent.imp_right fun ⟨b, hb, hr⟩ => ⟨_, b, hb, hr⟩
  | work i =>
    simp only [step, Option.map_eq_some_iff] at hs
    obtain ⟨b, hb, rfl⟩ := hs
    exact Or.inr ⟨_, b, h.worked hw hin hb⟩
  | unlock i ok =>
    simp only [step, Option.ite_none_right_eq_some, Option.bind_eq_some_iff,
      Option.map_eq_some_iff] at hs
    obtain ⟨hreads, ⟨b, ok'⟩, hleave, p, hp, rfl⟩ := hs
    exact (h.left hw hreads hleave hp).imp_right fun ⟨c, hc, hr⟩ => ⟨_, c, hc, hr⟩
  | retry i =>
    simp only [step, Option.ite_none_right_eq_some, Option.map_eq_some_iff] at hs
    obtain ⟨hretrying, p, hp, rfl⟩ := hs
    have hent := h.entered hw hin (Or.inr hretrying) hp (hin.sizes i (by simp [hretrying]))
    exact hent.imp_right fun ⟨b, hb, hr⟩ => ⟨_, b, hb, hr⟩
  | caller i =>
    simp only [step, Option.ite_none_right_eq_some, Option.map_eq_some_iff] at hs
    obtain ⟨-, p, hp, rfl⟩ := hs
    exact Or.inl (h.caller hw hp)
  | service marks =>
    simp only [step, Option.map_eq_some_iff] at hs
    obtain ⟨p, hp, rfl⟩ := hs
    exact (h.serviced hw hin hp).imp_right fun ⟨m, b, hb, hr⟩ => ⟨_, b, hb, hr⟩

end Refinement

theorem alloc_simulates (cfg : Config) (n : Nat) : Simulates (Start cfg n) (step cfg) anyStep
    (ConcurrentAlloc.Start cfg n) (ConcurrentAlloc.step cfg) anyStep
    (fun s => ServiceThread.Wf s.protocol ∧ Inside s) (Refines cfg) where
  start := by
    rintro s ⟨hp, ha⟩
    refine ⟨s.alloc, ha, fun _ => rfl, fun he => ?_⟩
    rw [hp] at he
    cases he
  step := by
    rintro s x s' a ⟨hw, hin⟩ hr - hs
    exact (hr.stepped hw hin hs).imp_right fun ⟨y, b, hb, hr'⟩ => ⟨y, b, trivial, hb, hr'⟩

theorem reachable_refines {s : State n} (h : Reachable cfg n s) :
    ∃ a, ConcurrentAlloc.Reachable cfg n a ∧ Refines cfg s a :=
  (alloc_simulates cfg n).reachable (fun _ hr => reachable_inside hr) h

/-- Every run of the threads and the service thread is a run in which a collection is one step:
the requests follow their protocol step by step, the allocators follow such a run step by step, and
no thread is inside `allocate_small_object` while the service thread collects. -/
theorem collection_atomic {s : State n} (h : Reachable cfg n s) :
    (ServiceThread.Reachable n s.protocol ∧
      ∀ x s', step cfg s x = some s' →
        s'.protocol = s.protocol ∨ ∃ b, ServiceThread.step s.protocol b = some s'.protocol) ∧
    (∃ a, ConcurrentAlloc.Reachable cfg n a ∧ Refines cfg s a ∧
      ∀ x s', step cfg s x = some s' →
        Refines cfg s' a ∨ ∃ b a', ConcurrentAlloc.step cfg a b = some a' ∧ Refines cfg s' a') ∧
    (s.protocol.service.writes = true → ∀ i, (s.alloc.thread i).pc = .idle) := by
  obtain ⟨hw, hin⟩ := reachable_inside h
  obtain ⟨a, ha, hr⟩ := reachable_refines h
  refine ⟨⟨reachable_protocol h, fun x s' hs => protocol_step cfg hs⟩, ⟨a, ha, hr, ?_⟩, ?_⟩
  · intro x s' hs
    exact hr.stepped hw hin hs
  · exact fun hwrites i => hin.idle (no_reader hw hwrites i)

/-- The requests of two threads for size 8, one step of each in turn. -/
def callsInTurn (i j : Fin 2) : List (Action 2) :=
  [.call i 8, .call j 8] ++ (List.replicate 5 [Action.work i, .work j]).flatten

/-- Thread `i` goes on to a size for which the large allocator has no room and meets the service
thread, which waits for thread `j` to leave the allocator before it collects. -/
def intoCollection (i j : Fin 2) (marks : Bytes.Mem) : List (Action 2) :=
  [.unlock i true, .call i 4096, .unlock j true, .unlock i false, .call j 8, .caller i, .work j,
    .caller i, .service marks, .service marks, .caller i, .work j, .work j, .unlock j true] ++
    List.replicate 3 (.service marks)

theorem initial_start (cfg : Config) (n : Nat) {m : Bytes.Mem} (h : ZeroedSmallHeap cfg m) :
    Start cfg n ⟨ServiceThread.initial n, ConcurrentAlloc.initial cfg n m, fun _ => 0⟩ :=
  ⟨rfl, m, h, rfl⟩

theorem collection_atomic_two_threads :
    ∃ s : State 2, s.protocol.service = .collecting ∧
      s.alloc.returned = [(8280, 8), (8272, 8), (4176, 8)] ∧
      ∀ i, (s.alloc.thread i).pc = .idle := by
  have hstart : Reachable twoBlocks 2 ⟨ServiceThread.initial 2,
      ConcurrentAlloc.initial twoBlocks 2 fun _ => 0#8, fun _ => 0⟩ :=
    .init (initial_start twoBlocks 2 fun _ _ _ => rfl)
  obtain ⟨s, hr, hpc, hreturned⟩ := hstart.exists_of_run
    (callsInTurn 0 1 ++ intoCollection 0 1 fun _ => 0#8)
    (fun s => s.protocol.service = .collecting ∧
      s.alloc.returned = [(8280, 8), (8272, 8), (4176, 8)]) (by decide +kernel)
  exact ⟨s, hpc, hreturned, (collection_atomic hr).2.2 (by rw [hpc]; rfl)⟩

theorem at_of_stopAndMark {a : ConcurrentAlloc.State n} {marks : Bytes.Mem} {b : Nat}
    {p : ConcurrentAlloc.Position n} (h : ConcurrentAlloc.At (stopAndMark cfg a marks) b p) :
    ConcurrentAlloc.At a b p := by
  cases p with
  | emptyList => exact h
  | segregList size => exact h
  | cache t size =>
    simp only [ConcurrentAlloc.At, stopAndMark, clearCache] at h
    split at h
    · cases h
    · exact h

/-- Whatever the order of the steps, the ranges returned since the last sweep do not overlap, and
no block is on two lists, in two caches or in a cache and on a list. -/
theorem answers_apart {s : State n} (h : Reachable cfg n s) :
    s.alloc.returned.Pairwise ConcurrentAlloc.Apart ∧
    ∀ b p q, ConcurrentAlloc.At s.alloc b p → ConcurrentAlloc.At s.alloc b q → p = q := by
  obtain ⟨a, ha, hr⟩ := reachable_refines h
  obtain ⟨place, hinv⟩ := ConcurrentAlloc.reachable_inv ha
  have hunique : ∀ b p q, ConcurrentAlloc.At a b p → ConcurrentAlloc.At a b q → p = q :=
    fun b p q hp hq =>
      ConcurrentAlloc.Position.home_inj ((hinv.at_place hp).2.symm.trans (hinv.at_place hq).2)
  by_cases hpc : s.protocol.service = .collecting
  · obtain ⟨-, marks, hmarked⟩ := hr.during hpc
    rw [hmarked]
    exact ⟨hinv.apart, fun b p q hp hq =>
      hunique b p q (at_of_stopAndMark hp) (at_of_stopAndMark hq)⟩
  · rw [hr.outside hpc]
    exact ⟨hinv.apart, hunique⟩

theorem answers_apart_in_turn :
    ∃ s : State 2, s.alloc.returned = [(4184, 8), (8272, 8), (4176, 8)] ∧
      s.alloc.returned.Pairwise ConcurrentAlloc.Apart := by
  have hstart : Reachable twoBlocks 2 ⟨ServiceThread.initial 2,
      ConcurrentAlloc.initial twoBlocks 2 fun _ => 0#8, fun _ => 0⟩ :=
    .init (initial_start twoBlocks 2 fun _ _ _ => rfl)
  obtain ⟨s, hr, hreturned⟩ := hstart.exists_of_run
    (callsInTurn 0 1 ++ [.unlock 0 true, .call 0 8, .work 0, .unlock 1 true, .work 0, .work 0])
    (fun s => s.alloc.returned = [(4184, 8), (8272, 8), (4176, 8)]) (by decide +kernel)
  exact ⟨s, hreturned, (answers_apart hr).1⟩

end GarbageCollector.LockedCollection
