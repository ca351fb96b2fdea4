import GarbageCollector.CellLifetime
import GarbageCollector.SignalWalk

/-!
# Threads that come and go

Threads are created, run and end while the service thread stops and restarts the world, one
collection after another. `thread_creation_lock` is held for reading while a thread is created and
for writing from the start of `stop_the_world` to the end of `start_the_world`. Under these locks
the steps are those of `CellLifetime` and, for the service thread up to its barrier, of
`SignalWalk`.
-/

namespace GarbageCollector.ThreadCreation

open Sync ThreadsStorage Transition

/-- The lock's parties are the service thread, `none`, and the creator of pair `k`, `some k`.
`fault` records a cell that was not allocated when the service thread read it. -/
structure State where
  life : CellLifetime.State
  creationLock : RwLock (Option Nat)
  service : SignalWalk.Walker
  fault : Bool

inductive Action where
  /-- `__wrap_pthread_create` begins with the lock. -/
  | enter (k : Nat)
  | creator (k : Nat) (ok : Bool)
  | leave (k : Nat)
  | started (k : Nat)
  | service
  deriving DecidableEq, Repr

def threadPc : CellLifetime.StartedPc → SignalWalk.ThreadPc
  | .absent => .absent
  | .user => .user
  | .finished => .finished
  | .destroying j => .destroying j
  | .destroyed | .gone => .gone

/-- What `stop_the_world` sees of the threads. -/
def view (s : State) : SignalWalk.State where
  storage := s.life.storage
  storageLock :=
    if s.service.pc = .counting then some none else s.life.storageLock.map fun p => some p.cell
  thread := threadPc ∘ s.life.started
  service := s.service
  fault := s.fault || s.life.fault

def locksStorage (s : CellLifetime.State) : CellLifetime.Action → Bool
  | .creator k _ => s.creator k = .idle || s.creator k = .failed
  | .started k => s.started k = .finished

/-- The service thread has `storage_lock` while it counts the cells. -/
def lifeStep (s : State) (a : CellLifetime.Action) : Option State :=
  if s.service.pc = .counting ∧ locksStorage s.life a = true then none
  else (CellLifetime.step s.life a).map fun life => { s with life := life }

def serviceStep (s : State) : Option State :=
  match s.service.pc with
  | .outside =>
    (s.creationLock.wrlock none).map fun l =>
      { s with creationLock := l, service := { s.service with pc := .locked } }
  | .atBarrier =>
    -- the barrier, `mark` and `sweep`, and `start_the_world`
    some { s with
      creationLock := s.creationLock.wrunlock, service := { s.service with pc := .outside } }
  | _ =>
    (SignalWalk.serviceStep (view s)).map fun t => { s with service := t.service, fault := t.fault }

def step (s : State) : Action → Option State
  | .enter k =>
    if s.life.creator k = .idle ∧ some k ∉ s.creationLock.readers then
      (s.creationLock.rdlock (some k)).map fun l => { s with creationLock := l }
    else none
  | .creator k ok => if some k ∈ s.creationLock.readers then lifeStep s (.creator k ok) else none
  | .leave k =>
    if s.life.creator k = .done ∧ some k ∈ s.creationLock.readers then
      some { s with creationLock := s.creationLock.rdunlock (some k) }
    else none
  | .started k => lifeStep s (.started k)
  | .service => serviceStep s

/-- Any registered threads, with nobody in `__wrap_pthread_create` or `stop_the_world`. -/
structure Start (s : State) : Prop where
  life : CellLifetime.Start s.life
  fewer : s.life.storage.threadCount < uintMax
  ids : ∀ k, s.life.creator k = .done → s.life.storage.thread k = k
  lock : s.creationLock = .free
  outside : s.service.pc = .outside
  noFault : s.fault = false

/-- A thread frees its cell after its creator has written `thread` and, when a stop is under way,
unlinks and frees it after its signal. A cell is created only while the barrier can count it. -/
def InOrder (s : State) : Action → Prop
  | .started k =>
    CellLifetime.WritesFirst s.life (.started k) ∧ SignalWalk.LeavesSignalled (view s) (.thread k)
  | .creator k _ => s.life.creator k = .idle → s.life.storage.threadCount + 1 < uintMax
  | _ => True

instance (s : State) (a : Action) : Decidable (InOrder s a) :=
  match a with
  | .started k => inferInstanceAs (Decidable
      (CellLifetime.WritesFirst s.life (.started k) ∧
        SignalWalk.LeavesSignalled (view s) (.thread k)))
  | .creator k _ => inferInstanceAs (Decidable
      (s.life.creator k = .idle → s.life.storage.threadCount + 1 < uintMax))
  | .enter _ | .leave _ | .service => isTrue trivial

/-- The cells that were counted: no thread is registered beside them, and all signals go to them. -/
structure Counts (s : State) (counted : List Nat) : Prop where
  length : counted.length = s.service.threadsStopped
  barrier : s.service.pc = .counted ∨ s.service.barrierCount = s.service.threadsStopped + 1
  registered : ∀ k, s.life.registered k = true → k ∈ counted
  signalled : s.service.signalled ⊆ counted

/-- The service thread holds the creation lock. -/
structure Stopping (s : State) : Prop where
  writer : s.creationLock.writer = some none
  readers : s.creationLock.readers = ∅
  walk : SignalWalk.Inv (view s)
  counted : s.service.pc = .locked ∨ s.service.pc = .counting ∨ ∃ counted, Counts s counted

structure Inv (s : State) : Prop where
  life : CellLifetime.Inv s.life
  noFault : s.fault = false
  ids : ∀ k, s.life.creator k = .done → s.life.started k ≠ .absent → s.life.storage.thread k = k
  readers : ∀ k, s.life.creator k = .idle ∨ s.life.creator k = .done ∨
    some k ∈ s.creationLock.readers
  counting : s.service.pc = .counting → s.life.storageLock = none
  stopping : s.service.pc ≠ .outside → Stopping s

section Life

variable {s s' : CellLifetime.State} {k i j : Nat} {ok : Bool}

/-- Pair `k` and the identity in its cell stay as they are. -/
structure Unmoved (s s' : CellLifetime.State) (k : Nat) : Prop where
  creator : s'.creator k = s.creator k
  started : s'.started k = s.started k
  thread : s'.storage.thread k = s.storage.thread k

theorem creatorStep_unmoved (hs : CellLifetime.creatorStep s i ok = some s') (hk : k ≠ i) :
    Unmoved s s' k := by
  cases hpc : s.creator i with
  | idle | failed =>
    simp only [CellLifetime.creatorStep, hpc, Option.ite_none_right_eq_some,
      Option.some.injEq] at hs
    obtain ⟨-, rfl⟩ := hs
    constructor <;> simp [CellLifetime.setCreator, Storage.calloc, hk]
  | creating j | destroying j =>
    simp only [CellLifetime.creatorStep, hpc] at hs
    split at hs <;> cases hs <;>
      constructor <;> simp [CellLifetime.access, CellLifetime.setCreator, hk]
  | created =>
    simp only [CellLifetime.creatorStep, hpc] at hs
    split at hs <;> cases hs <;>
      constructor <;> simp [CellLifetime.setStarted, CellLifetime.setCreator, hk]
  | running =>
    simp only [CellLifetime.creatorStep, hpc, Option.some.injEq] at hs
    subst hs
    constructor <;> simp [CellLifetime.access, CellLifetime.setCreator, Storage.setThread, hk]
  | done =>
    simp only [CellLifetime.creatorStep, hpc] at hs
    cases hs

/-- A creator that is done has written the identity, or there is no thread. -/
theorem creatorStep_done (h : CellLifetime.Inv s)
    (hs : CellLifetime.creatorStep s i ok = some s') (hdone : s'.creator i = .done)
    (hthread : s'.started i ≠ .absent) : s'.storage.thread i = i := by
  have hpair := h.pairs i
  cases hpc : s.creator i with
  | idle | failed =>
    simp only [CellLifetime.creatorStep, hpc, Option.ite_none_right_eq_some,
      Option.some.injEq] at hs
    obtain ⟨-, rfl⟩ := hs
    simp [CellLifetime.setCreator] at hdone
  | creating j =>
    simp only [CellLifetime.creatorStep, hpc] at hs
    split at hs <;> cases hs <;> simp [CellLifetime.access] at hdone
  | created =>
    simp only [CellLifetime.creatorStep, hpc] at hs
    split at hs <;> cases hs <;> simp [CellLifetime.setStarted] at hdone
  | running =>
    simp only [CellLifetime.creatorStep, hpc, Option.some.injEq] at hs
    subst hs
    exact Function.update_self _ _ _
  | destroying j =>
    rw [hpc] at hpair
    have habsent : s.started i = .absent := hpair.1
    simp only [CellLifetime.creatorStep, hpc] at hs
    split at hs
    · cases hs
      exact absurd habsent hthread
    · cases hs
      exact absurd habsent hthread
  | done =>
    simp only [CellLifetime.creatorStep, hpc] at hs
    cases hs

/-- What the end of a thread leaves alone. -/
structure Fades (s s' : CellLifetime.State) (i : Nat) : Prop where
  there : s.started i ≠ .absent
  creator : s'.creator = s.creator
  thread : s'.storage.thread = s.storage.thread
  others : ∀ k, k ≠ i → s'.started k = s.started k
  registered : s'.registered i = true → s.registered i = true
  lock : s.started i ≠ .finished → s.storageLock = none → s'.storageLock = none

theorem startedStep_fades (h : CellLifetime.Inv s) (hs : CellLifetime.startedStep s i = some s') :
    Fades s s' i := by
  have hpair := h.pairs i
  cases hpc : s.started i with
  | absent | gone =>
    simp only [CellLifetime.startedStep, hpc] at hs
    cases hs
  | user | destroyed =>
    simp only [CellLifetime.startedStep, hpc, Option.some.injEq] at hs
    subst hs
    constructor
    · simp [hpc]
    · rfl
    · rfl
    · exact fun k hk => Function.update_of_ne hk _ _
    · cases hc : s.creator i <;> simp_all [CellLifetime.State.registered, CellLifetime.setStarted]
    · exact fun _ hl => hl
  | finished =>
    simp only [CellLifetime.startedStep, hpc, Option.ite_none_right_eq_some,
      Option.some.injEq] at hs
    obtain ⟨-, rfl⟩ := hs
    constructor
    · simp [hpc]
    · rfl
    · rfl
    · exact fun k hk => Function.update_of_ne hk _ _
    · cases hc : s.creator i <;> simp_all [CellLifetime.State.registered, CellLifetime.setStarted]
    · exact fun hne => absurd hpc hne
  | destroying j =>
    have hheld := (h.lock (.started i)).mpr (by simp [CellLifetime.State.holds, hpc])
    simp only [CellLifetime.startedStep, hpc] at hs
    split at hs <;> cases hs
    all_goals
      constructor
      · simp [hpc]
      · rfl
      · simp [CellLifetime.access, CellLifetime.setStarted]
      · exact fun k hk => Function.update_of_ne hk _ _
      · cases hc : s.creator i <;>
          simp_all [CellLifetime.State.registered, CellLifetime.setStarted, CellLifetime.access]
      · intro _ hl
        simp [hl] at hheld

/-- The creators are between two calls. -/
def Quiet (s : CellLifetime.State) : Prop := ∀ k, s.creator k = .idle ∨ s.creator k = .done

theorem registered_iff (h : CellLifetime.Inv s) (hq : Quiet s) :
    s.registered k = (threadPc (s.started k)).registered := by
  have hpair := h.pairs k
  rcases hq k with hc | hc
  · rw [hc] at hpair
    have habsent : s.started k = .absent := hpair
    rw [CellLifetime.State.registered, hc, habsent]
    rfl
  · rw [CellLifetime.State.registered, hc]
    cases s.started k <;> rfl

end Life

section Views

variable {s s' : State} {life : CellLifetime.State} {t : SignalWalk.State} {k : Nat}

theorem view_lock (hpc : s.service.pc ≠ .counting) :
    (view s).storageLock = s.life.storageLock.map fun p => some p.cell :=
  if_neg hpc

theorem view_holds (s : State) (k : Nat) :
    (view s).holds (some k) = s.life.holds (.started k) := by
  simp only [SignalWalk.State.holds, CellLifetime.State.holds, view, Function.comp_apply]
  cases s.life.started k <;> rfl

/-- The creation lock is granted when no cell is being created, and all cells have identities. -/
theorem view_inv (h : CellLifetime.Inv s.life) (hq : Quiet s.life)
    (hids : ∀ k, s.life.creator k = .done → s.life.started k ≠ .absent →
      s.life.storage.thread k = k)
    (hpc : s.service.pc = .locked) (hf : s.fault = false) : SignalWalk.Inv (view s) := by
  obtain ⟨base, l, hreg, hmem, hstage⟩ := h.storage
  have hthread : ∀ k, k ∈ l → s.life.storage.thread k = k := by
    intro k hk
    have hregistered := (hmem k).mp hk
    rcases hq k with hc | hc
    · simp [CellLifetime.State.registered, hc] at hregistered
    · refine hids k hc fun habsent => ?_
      simp [CellLifetime.State.registered, hc, habsent] at hregistered
  have howner : ∀ p, s.life.storageLock = some p → ∃ k, p = .started k := by
    intro p hp
    have hholds := (h.lock p).mp hp
    cases p with
    | creator k => rcases hq k with hc | hc <;> simp [CellLifetime.State.holds, hc] at hholds
    | started k => exact ⟨k, rfl⟩
  have hnot : s.service.pc ≠ .counting := by simp [hpc]
  refine ⟨?_, fun p => ?_, ⟨base, l, hreg, fun k => ?_, fun k hk => ?_, ?_, ?_⟩, fun hwin => ?_⟩
  · simp [view, hf, h.noFault]
  · rw [view_lock hnot]
    cases p with
    | none => simp [SignalWalk.State.holds, view, hpc]
    | some c =>
      rw [Option.map_eq_some_iff, view_holds]
      constructor
      · rintro ⟨p, hp, hc⟩
        obtain ⟨k, rfl⟩ := howner p hp
        cases hc
        exact (h.lock _).mp hp
      · exact fun hholds => ⟨.started c, (h.lock _).mpr hholds, rfl⟩
  · rw [hmem k, registered_iff h hq]
    rfl
  · have hid := hthread k hk
    cases hstage with
    | idle _ hs => rwa [hs] at hid
    | creating i j _ hc => rcases hq i with hi | hi <;> cases hi.symm.trans hc
    | destroying p j _ _ hs => rwa [hs, destroyUpTo_thread] at hid
  · cases hstage with
    | idle hl hs => exact .idle (Or.inl (by rw [view_lock hnot, hl]; rfl)) hs
    | creating i j _ hc => rcases hq i with hi | hi <;> cases hi.symm.trans hc
    | destroying p j hl hd hs =>
      obtain ⟨k, rfl⟩ := howner p hl
      have hstarted := CellLifetime.destroyed_started.mp hd
      have hpair := h.pairs k
      refine .destroying k j (by rw [view_lock hnot, hl]; rfl) ?_ (congrArg threadPc hstarted) hs
      rw [hstarted] at hpair
      rcases hq k with hc | hc
      · rw [hc] at hpair
        cases hpair
      · rw [hc] at hpair
        exact hpair
  · simp [SignalWalk.Walk, view, hpc]
  · have hout : s.service.pc.window = true := hwin
    rw [hpc] at hout
    cases hout

/-- A thread that ends is seen to do so, or nothing is seen. -/
theorem startedStep_view (h : CellLifetime.Inv s.life)
    (hcount : s.service.pc = .counting → s.life.storageLock = none)
    (hfree : ¬ (s.service.pc = .counting ∧ locksStorage s.life (.started k) = true))
    (hs : CellLifetime.startedStep s.life k = some life) :
    view { s with life := life } = view s ∨
      SignalWalk.threadStep (view s) k = some (view { s with life := life }) := by
  cases hpc : s.life.started k with
  | absent | gone =>
    simp only [CellLifetime.startedStep, hpc] at hs
    cases hs
  | user =>
    simp only [CellLifetime.startedStep, hpc, Option.some.injEq] at hs
    subst hs
    right
    simp [SignalWalk.threadStep, hpc, threadPc, view, SignalWalk.setThread,
      CellLifetime.setStarted, Function.comp_update]
  | finished =>
    simp only [CellLifetime.startedStep, hpc, Option.ite_none_right_eq_some,
      Option.some.injEq] at hs
    obtain ⟨hl, rfl⟩ := hs
    have hnot : s.service.pc ≠ .counting := fun hc => hfree ⟨hc, by simp [locksStorage, hpc]⟩
    right
    simp [SignalWalk.threadStep, hpc, threadPc, view, SignalWalk.setThread, hnot, hl,
      CellLifetime.setStarted, Function.comp_update, CellLifetime.Party.cell]
  | destroying j =>
    have hheld := (h.lock (.started k)).mpr (by simp [CellLifetime.State.holds, hpc])
    have hnot : s.service.pc ≠ .counting := by
      intro hc
      rw [hcount hc] at hheld
      cases hheld
    simp only [CellLifetime.startedStep, hpc] at hs
    right
    split at hs
    · rename_i hj
      cases hs
      simp [SignalWalk.threadStep, hpc, threadPc, hj, view, SignalWalk.setThread, hnot,
        CellLifetime.setStarted, CellLifetime.access, Function.comp_update,
        SignalWalk.faultAfter, Bool.or_assoc]
    · rename_i hj
      cases hs
      simp [SignalWalk.threadStep, hpc, threadPc, hj, view, SignalWalk.setThread, hnot,
        CellLifetime.setStarted, Function.comp_update]
  | destroyed =>
    simp only [CellLifetime.startedStep, hpc, Option.some.injEq] at hs
    subst hs
    left
    have hsame :
        Function.update (threadPc ∘ s.life.started) k .gone = threadPc ∘ s.life.started := by
      apply Function.update_eq_self_iff.mpr
      simp [hpc, threadPc]
    simp [view, CellLifetime.setStarted, Function.comp_update, threadPc, hsame]

/-- The service thread goes on in what it sees. -/
theorem serviceStep_view (hcount : s.service.pc = .counting → s.life.storageLock = none)
    (hf : s.life.fault = false) (hs : SignalWalk.serviceStep (view s) = some t) :
    view { s with service := t.service, fault := t.fault } = t := by
  have hservice : (view s).service = s.service := rfl
  cases hpc : s.service.pc with
  | outside | counted | ready | signalling thread =>
    simp only [SignalWalk.serviceStep, hservice, hpc, Option.some.injEq] at hs
    subst hs
    simp [view, hpc, hf]
  | locked =>
    simp only [SignalWalk.serviceStep, hservice, hpc, Option.ite_none_right_eq_some,
      Option.some.injEq] at hs
    obtain ⟨-, rfl⟩ := hs
    simp [view, hf]
  | counting =>
    simp only [SignalWalk.serviceStep, hservice, hpc, Option.some.injEq] at hs
    subst hs
    simp [view, hf, hcount hpc]
  | walking =>
    cases hcur : s.service.currentNode <;>
      simp only [SignalWalk.serviceStep, hservice, hpc, hcur, Option.some.injEq] at hs <;>
      subst hs <;> simp [view, hpc, hf]
  | reading cell | advancing cell thread =>
    simp only [SignalWalk.serviceStep, hservice, hpc, Option.some.injEq] at hs
    subst hs
    simp [view, hpc, hf]
  | atBarrier =>
    simp only [SignalWalk.serviceStep, hservice, hpc] at hs
    cases hs

/-- The service thread moves on, with the same counts and signals. -/
theorem Counts.move {counted : List Nat} {w : SignalWalk.Walker} {fault : Bool}
    (h : Counts s counted) (hpc : s.service.pc ≠ .counted)
    (hstopped : w.threadsStopped = s.service.threadsStopped)
    (hbarrier : w.barrierCount = s.service.barrierCount)
    (hsignalled : w.signalled = s.service.signalled) :
    Counts { s with service := w, fault := fault } counted where
  length := h.length.trans hstopped.symm
  barrier := Or.inr (by
    rw [hstopped, hbarrier]
    exact h.barrier.resolve_left hpc)
  registered := h.registered
  signalled := by
    rw [hsignalled]
    exact h.signalled

/-- All cells are counted under `storage_lock`. -/
theorem counts_all (h : CellLifetime.Inv s.life) (hq : Quiet s.life)
    (hw : SignalWalk.Inv (view s)) (hpc : s.service.pc = .counting)
    (hs : SignalWalk.serviceStep (view s) = some t) :
    ∃ counted, Counts { s with service := t.service, fault := t.fault } counted := by
  obtain ⟨base, l, hreg, hmem, -, hstage, -⟩ := hw.storage
  have hlock : (view s).storageLock = some none := if_pos hpc
  have hbase : s.life.storage = base := by
    cases hstage with
    | idle _ hs => exact hs
    | destroying c j hl =>
      rw [hlock] at hl
      cases hl
  have hservice : (view s).service.pc = .counting := hpc
  simp only [SignalWalk.serviceStep, hservice, Option.some.injEq] at hs
  subst hs
  refine ⟨l, ?_, Or.inl rfl, fun k hk => ?_, List.nil_subset l⟩
  · show l.length = s.life.storage.threadCount
    rw [hbase, hreg.count]
  · rw [registered_iff h hq] at hk
    exact (hmem k).mpr hk

/-- A signal goes to a registered thread. -/
theorem signalling_registered {c : Nat} (h : CellLifetime.Inv s.life) (hq : Quiet s.life)
    (hw : SignalWalk.Inv (view s)) (hpc : s.service.pc = .signalling c) :
    s.life.registered c = true := by
  obtain ⟨base, l, -, hmem, -, -, hwalk⟩ := hw.storage
  have hservice : (view s).service.pc = .signalling c := hpc
  simp only [SignalWalk.Walk, hservice] at hwalk
  obtain ⟨rest, hrest⟩ := hwalk
  have hplace := hrest.place
  rw [hservice] at hplace
  obtain ⟨rest', rfl, -⟩ := hplace
  rw [registered_iff h hq]
  exact (hmem c).mp (hrest.mem_list List.mem_cons_self)

theorem service_counts (h : CellLifetime.Inv s.life) (hq : Quiet s.life)
    (hw : SignalWalk.Inv (view s)) (hout : s.service.pc ≠ .outside)
    (hc : s.service.pc = .locked ∨ s.service.pc = .counting ∨ ∃ counted, Counts s counted)
    (hs : SignalWalk.serviceStep (view s) = some t) :
    t.service.pc = .locked ∨ t.service.pc = .counting ∨
      ∃ counted, Counts { s with service := t.service, fault := t.fault } counted := by
  have hservice : (view s).service = s.service := rfl
  cases hpc : s.service.pc with
  | outside => exact absurd hpc hout
  | locked =>
    simp only [SignalWalk.serviceStep, hservice, hpc, Option.ite_none_right_eq_some,
      Option.some.injEq] at hs
    obtain ⟨-, rfl⟩ := hs
    exact Or.inr (Or.inl rfl)
  | counting => exact Or.inr (Or.inr (counts_all h hq hw hpc hs))
  | counted =>
    obtain ⟨counted, hcounts⟩ : ∃ counted, Counts s counted := by simpa [hpc] using hc
    simp only [SignalWalk.serviceStep, hservice, hpc, Option.some.injEq] at hs
    subst hs
    exact Or.inr (Or.inr ⟨counted, hcounts.length, Or.inr rfl, hcounts.registered,
      hcounts.signalled⟩)
  | ready | reading cell | advancing cell thread =>
    obtain ⟨counted, hcounts⟩ : ∃ counted, Counts s counted := by simpa [hpc] using hc
    simp only [SignalWalk.serviceStep, hservice, hpc, Option.some.injEq] at hs
    subst hs
    exact Or.inr (Or.inr ⟨counted, hcounts.move (by simp [hpc]) rfl rfl rfl⟩)
  | walking =>
    obtain ⟨counted, hcounts⟩ : ∃ counted, Counts s counted := by simpa [hpc] using hc
    cases hcur : s.service.currentNode <;>
      simp only [SignalWalk.serviceStep, hservice, hpc, hcur, Option.some.injEq] at hs <;>
      subst hs <;>
      exact Or.inr (Or.inr ⟨counted, hcounts.move (by simp [hpc]) rfl rfl rfl⟩)
  | signalling c =>
    obtain ⟨counted, hcounts⟩ : ∃ counted, Counts s counted := by simpa [hpc] using hc
    simp only [SignalWalk.serviceStep, hservice, hpc, Option.some.injEq] at hs
    subst hs
    refine Or.inr (Or.inr ⟨counted, hcounts.length, Or.inr ?_, hcounts.registered, ?_⟩)
    · exact hcounts.barrier.resolve_left (by simp [hpc])
    · have hin := hcounts.registered c (signalling_registered h hq hw hpc)
      exact List.cons_subset.mpr ⟨hin, hcounts.signalled⟩
  | atBarrier =>
    simp only [SignalWalk.serviceStep, hservice, hpc] at hs
    cases hs

end Views

section Preservation

variable {s s' : State} {k : Nat} {ok : Bool}

theorem start_inv (h : Start s) : Inv s := by
  obtain ⟨l, -, -, -, hcreator, -⟩ := h.life
  constructor
  · exact CellLifetime.start_inv h.life
  · exact h.noFault
  · exact fun k hk _ => h.ids k hk
  · intro k
    rw [hcreator k]
    by_cases hk : k ∈ l <;> simp [hk]
  · simp [h.outside]
  · exact fun hout => absurd h.outside hout

/-- Nobody creates a thread while the service thread has the lock. -/
theorem Inv.quiet (h : Inv s) (hr : s.creationLock.readers = ∅) : Quiet s.life := by
  intro k
  have hk := h.readers k
  simpa [hr] using hk

/-- Whoever creates a thread keeps the service thread out. -/
theorem Inv.outside (h : Inv s) (hk : some k ∈ s.creationLock.readers) :
    s.service.pc = .outside := by
  by_contra hne
  simp [(h.stopping hne).readers] at hk

theorem lifeStep_eq_some {a : CellLifetime.Action} : lifeStep s a = some s' ↔
    ¬ (s.service.pc = .counting ∧ locksStorage s.life a = true) ∧
      ∃ life, CellLifetime.step s.life a = some life ∧ { s with life := life } = s' := by
  simp [lifeStep]

theorem Inv.enter (h : Inv s) (hs : step s (.enter k) = some s') : Inv s' := by
  simp only [step, Option.ite_none_right_eq_some, Option.map_eq_some_iff] at hs
  obtain ⟨-, l, hl, rfl⟩ := hs
  obtain ⟨hfree, rfl⟩ := RwLock.rdlock_eq_some.mp hl
  have hout : s.service.pc = .outside := by
    by_contra hne
    rw [(h.stopping hne).writer] at hfree
    cases hfree
  constructor
  · exact h.life
  · exact h.noFault
  · exact h.ids
  · exact fun i => (h.readers i).imp_right (Or.imp_right (Finset.mem_insert_of_mem ·))
  · exact h.counting
  · exact fun hne => absurd hout hne

theorem Inv.leave (h : Inv s) (hs : step s (.leave k) = some s') : Inv s' := by
  simp only [step, Option.ite_none_right_eq_some, Option.some.injEq] at hs
  obtain ⟨⟨hdone, hk⟩, rfl⟩ := hs
  constructor
  · exact h.life
  · exact h.noFault
  · exact h.ids
  · intro i
    by_cases hi : i = k
    · exact Or.inr (Or.inl (hi ▸ hdone))
    · refine (h.readers i).imp_right (Or.imp_right fun hin => ?_)
      exact Finset.mem_erase.mpr ⟨fun he => hi (Option.some.inj he), hin⟩
  · exact h.counting
  · exact fun hne => absurd (h.outside hk) hne

theorem Inv.create (h : Inv s) (hs : step s (.creator k ok) = some s') : Inv s' := by
  simp only [step, Option.ite_none_right_eq_some, lifeStep_eq_some] at hs
  obtain ⟨hk, -, life, hlife, rfl⟩ := hs
  have hout := h.outside hk
  constructor
  · exact CellLifetime.creatorStep_inv h.life hlife
  · exact h.noFault
  · intro i hdone hthread
    by_cases hi : i = k
    · subst hi
      exact creatorStep_done h.life hlife hdone hthread
    · obtain ⟨hcreator, hstarted, hid⟩ := creatorStep_unmoved hlife hi
      rw [hcreator] at hdone
      rw [hstarted] at hthread
      exact hid.trans (h.ids i hdone hthread)
  · intro i
    by_cases hi : i = k
    · exact Or.inr (Or.inr (hi ▸ hk))
    · rw [(creatorStep_unmoved hlife hi).creator]
      exact h.readers i
  · simp [hout]
  · exact fun hne => absurd hout hne

/-- A thread that ends was counted if it is registered at all. -/
theorem Counts.fade {life : CellLifetime.State} {counted : List Nat} (h : Counts s counted)
    (hf : Fades s.life life k) : Counts { s with life := life } counted := by
  refine ⟨h.length, h.barrier, fun i hi => h.registered i ?_, h.signalled⟩
  by_cases hik : i = k
  · subst hik
    exact hf.registered hi
  · have hi' : life.registered i = true := hi
    rwa [CellLifetime.State.registered, hf.creator, hf.others i hik] at hi'

theorem Inv.fade (h : Inv s) (hok : InOrder s (.started k)) (hs : step s (.started k) = some s') :
    Inv s' := by
  obtain ⟨hfree, life, hlife, rfl⟩ := lifeStep_eq_some.mp hs
  have hf := startedStep_fades h.life hlife
  constructor
  · exact CellLifetime.startedStep_inv h.life hok.1 hlife
  · exact h.noFault
  · intro i hdone hthread
    have hdone' : s.life.creator i = .done := by rwa [← hf.creator]
    have hthread' : s.life.started i ≠ .absent := by
      by_cases hi : i = k
      · exact hi ▸ hf.there
      · rwa [← hf.others i hi]
    have hid := h.ids i hdone' hthread'
    rwa [← hf.thread] at hid
  · intro i
    rw [hf.creator]
    exact h.readers i
  · intro hpc
    refine hf.lock (fun hfinished => hfree ⟨hpc, ?_⟩) (h.counting hpc)
    simp [locksStorage, hfinished]
  · intro hne
    have hstop := h.stopping hne
    refine ⟨hstop.writer, hstop.readers, ?_, ?_⟩
    · rcases startedStep_view h.life h.counting hfree hlife with hsame | hstep
      · exact hsame ▸ hstop.walk
      · exact SignalWalk.threadStep_inv hstop.walk hok.2 hstep
    · refine hstop.counted.imp_right (Or.imp_right ?_)
      exact fun ⟨counted, hcounts⟩ => ⟨counted, hcounts.fade hf⟩

/-- `stop_the_world` begins when nobody creates a thread. -/
theorem Inv.stop (h : Inv s) (hpc : s.service.pc = .outside) (hs : step s .service = some s') :
    Inv s' := by
  simp only [step, serviceStep, hpc, Option.map_eq_some_iff] at hs
  obtain ⟨l, hl, rfl⟩ := hs
  obtain ⟨⟨-, hnone⟩, rfl⟩ := RwLock.wrlock_eq_some.mp hl
  constructor
  · exact h.life
  · exact h.noFault
  · exact h.ids
  · exact h.readers
  · simp
  · refine fun _ => ⟨rfl, hnone, ?_, Or.inl rfl⟩
    exact view_inv h.life (h.quiet hnone) h.ids rfl h.noFault

theorem counting_lock {t : SignalWalk.State} (hs : SignalWalk.serviceStep (view s) = some t)
    (hpc : t.service.pc = .counting) : s.life.storageLock = none := by
  have hservice : (view s).service = s.service := rfl
  cases hpc' : s.service.pc with
  | locked =>
    simp only [SignalWalk.serviceStep, hservice, hpc', Option.ite_none_right_eq_some] at hs
    have hl := hs.1
    rw [view_lock (by simp [hpc']), Option.map_eq_none_iff] at hl
    exact hl
  | atBarrier =>
    simp only [SignalWalk.serviceStep, hservice, hpc'] at hs
    cases hs
  | walking =>
    cases hcur : s.service.currentNode <;>
      simp only [SignalWalk.serviceStep, hservice, hpc', hcur, Option.some.injEq] at hs <;>
      subst hs <;> cases hpc
  | _ =>
    simp only [SignalWalk.serviceStep, hservice, hpc', Option.some.injEq] at hs
    subst hs
    cases hpc

theorem Inv.walk (h : Inv s) (hout : s.service.pc ≠ .outside) (hbarrier : s.service.pc ≠ .atBarrier)
    (hs : step s .service = some s') : Inv s' := by
  obtain ⟨t, ht, rfl⟩ : ∃ t, SignalWalk.serviceStep (view s) = some t ∧
      { s with service := t.service, fault := t.fault } = s' := by
    rw [step, serviceStep] at hs
    split at hs
    · exact absurd ‹_› hout
    · exact absurd ‹_› hbarrier
    · exact Option.map_eq_some_iff.mp hs
  have hstop := h.stopping hout
  have hwalk := SignalWalk.serviceStep_inv hstop.walk ht
  constructor
  · exact h.life
  · exact hwalk.noFault
  · exact h.ids
  · exact h.readers
  · exact fun hcounting => counting_lock (s := s) ht hcounting
  · refine fun _ => ⟨hstop.writer, hstop.readers, ?_, ?_⟩
    · rw [serviceStep_view h.counting h.life.noFault ht]
      exact hwalk
    · exact service_counts h.life (h.quiet hstop.readers) hstop.walk hout hstop.counted ht

/-- `start_the_world` gives the lock back. -/
theorem Inv.restart (h : Inv s) (hpc : s.service.pc = .atBarrier) (hs : step s .service = some s') :
    Inv s' := by
  simp only [step, serviceStep, hpc, Option.some.injEq] at hs
  subst hs
  constructor
  · exact h.life
  · exact h.noFault
  · exact h.ids
  · exact h.readers
  · simp
  · exact fun hne => absurd rfl hne

theorem step_inv {a : Action} (h : Inv s) (hok : InOrder s a) (hs : step s a = some s') :
    Inv s' := by
  cases a with
  | enter k => exact h.enter hs
  | creator k ok => exact h.create hs
  | leave k => exact h.leave hs
  | started k => exact h.fade hok hs
  | service =>
    by_cases hout : s.service.pc = .outside
    · exact h.stop hout hs
    · by_cases hbarrier : s.service.pc = .atBarrier
      · exact h.restart hbarrier hs
      · exact h.walk hout hbarrier hs

theorem reachable_inv (h : Reachable Start step InOrder s) : Inv s :=
  h.invariant (fun _ => start_inv) fun _ _ _ hi hok hs => step_inv hi hok hs

theorem signals_at_barrier (hpc : s.service.pc = .atBarrier) (hw : SignalWalk.Inv (view s)) :
    s.service.signalled.Nodup ∧ s.service.signalled.length + 1 = s.service.barrierCount := by
  obtain ⟨base, l, -, -, -, -, hwalk⟩ := hw.storage
  have hservice : (view s).service.pc = .atBarrier := hpc
  simp only [SignalWalk.Walk, hservice] at hwalk
  exact hwalk

/-- At the barrier all registered threads have their signal. -/
theorem Counts.all_signalled {counted : List Nat} (h : Counts s counted)
    (hpc : s.service.pc = .atBarrier) (hw : SignalWalk.Inv (view s))
    (hk : s.life.registered k = true) : k ∈ s.service.signalled := by
  obtain ⟨hnodup, hlength⟩ := signals_at_barrier hpc hw
  have hlen := h.length
  have hbarrier := h.barrier.resolve_left (by simp [hpc])
  have hsub : s.service.signalled.Subperm counted :=
    List.subperm_of_subset hnodup h.signalled
  have hperm := hsub.perm_of_length_le (by omega)
  exact hperm.mem_iff.mpr (h.registered k hk)

end Preservation

/-- Threads may be created and end at any time, in any number of collections: nobody creates one
between the start of `stop_the_world` and the end of `start_the_world`, the walk reads no freed
cell, and at the barrier each thread that runs has been signalled, once. -/
theorem running_threads_signalled {s : State} (h : Reachable Start step InOrder s) :
    s.life.fault = false ∧ s.fault = false ∧
      (s.service.pc ≠ .outside → ∀ k, s.life.creator k = .idle ∨ s.life.creator k = .done) ∧
      (s.service.pc = .atBarrier →
        s.service.signalled.Nodup ∧ s.service.signalled.length + 1 = s.service.barrierCount ∧
        ∀ k, s.life.started k = .user → k ∈ s.service.signalled) := by
  have hi := reachable_inv h
  refine ⟨hi.life.noFault, hi.noFault, fun hout => hi.quiet (hi.stopping hout).readers, ?_⟩
  intro hpc
  have hstop := hi.stopping (by simp [hpc])
  obtain ⟨counted, hcounts⟩ : ∃ counted, Counts s counted := by
    simpa [hpc] using hstop.counted
  obtain ⟨hnodup, hlength⟩ := signals_at_barrier hpc hstop.walk
  refine ⟨hnodup, hlength, fun k hk => hcounts.all_signalled hpc hstop.walk ?_⟩
  rw [registered_iff hi.life (hi.quiet hstop.readers), hk]
  rfl

/-- No thread is registered. -/
def noThreads : State := ⟨CellLifetime.noThreads, .free, ⟨.outside, 0, 0, none, []⟩, false⟩

theorem noThreads_inOrder : Reachable Start step InOrder noThreads := by
  refine .init ⟨CellLifetime.noThreads_start, by decide, ?_, rfl, rfl, rfl⟩
  intro k hk
  cases hk

/-- The thread of pair `k` is created. -/
def creates (k : Nat) : List Action :=
  .enter k :: List.replicate 8 (.creator k true) ++ [.leave k]

/-- Two threads are created and stopped; then they run on, one ends, a third one is created and the
world is stopped again. -/
theorem running_threads_signalled_twice :
    ∃ s : State, s.service.pc = .atBarrier ∧ s.life.started 1 = .gone ∧
      s.life.started 2 = .user ∧ 2 ∈ s.service.signalled := by
  obtain ⟨s, hr, hpc, hgone, huser⟩ := noThreads_inOrder.exists_of_run
    (creates 0 ++ creates 1 ++ List.replicate 15 .service ++ List.replicate 9 (.started 1) ++
      creates 2 ++ List.replicate 14 .service)
    (fun s => s.service.pc = .atBarrier ∧ s.life.started 1 = .gone ∧ s.life.started 2 = .user)
    (by decide +kernel)
  exact ⟨s, hpc, hgone, huser, ((running_threads_signalled hr).2.2.2 hpc).2.2 2 huser⟩

end GarbageCollector.ThreadCreation
