import GarbageCollector.Sync
import GarbageCollector.ThreadsStorage
import GarbageCollector.Transition

/-!
# The lifetime of a cell

`__wrap_pthread_create` in the creating thread and `wrap_user_routine` in the started one, for
any number of pairs of such threads. A step is one operation on the storage of threads, on its
lock, or the start or end of a routine. `thread_creation_lock` has only readers here, and the
wrapper arguments are not modelled.
-/

namespace GarbageCollector.CellLifetime

open Sync ThreadsStorage

/-- Where the creating thread is in `__wrap_pthread_create`. -/
inductive CreatorPc where
  | idle
  | creating (j : Nat)
  | created
  /-- `pthread_create` succeeded, `thread_node->thread` is not written yet. -/
  | running
  | failed
  | destroying (j : Nat)
  | done
  deriving DecidableEq, Repr

/-- Where the started thread is in `wrap_user_routine`. -/
inductive StartedPc where
  | absent
  | user
  | finished
  | destroying (j : Nat)
  | destroyed
  | gone
  deriving DecidableEq, Repr

inductive Party where
  | creator (k : Nat)
  | started (k : Nat)
  deriving DecidableEq, Repr

/-- The cell of the party's pair. -/
def Party.cell : Party → Nat
  | .creator k | .started k => k

/-- The cell of pair `k` is `k`. `fault` records an access to a cell that is not allocated. -/
structure State where
  storage : Storage
  storageLock : Mutex Party
  creator : Nat → CreatorPc
  started : Nat → StartedPc
  fault : Bool

inductive Action where
  /-- `ok` is the outcome of `pthread_create`. -/
  | creator (k : Nat) (ok : Bool)
  | started (k : Nat)
  deriving DecidableEq, Repr

def setCreator (s : State) (k : Nat) (pc : CreatorPc) : State :=
  { s with creator := Function.update s.creator k pc }

def setStarted (s : State) (k : Nat) (pc : StartedPc) : State :=
  { s with started := Function.update s.started k pc }

/-- The storage changes, with accesses to `cells`. -/
def access (s : State) (cells : List Nat) (storage : Storage) : State :=
  { s with storage := storage, fault := s.fault || cells.any fun c => !s.storage.live c }

def creatorStep (s : State) (k : Nat) (ok : Bool) : Option State :=
  match s.creator k with
  | .idle =>
    if s.storageLock = none then
      some { setCreator s k (.creating 0) with
        storage := s.storage.calloc k, storageLock := some (.creator k) }
    else none
  | .creating j =>
    if j < createOps then
      some (access (setCreator s k (.creating (j + 1))) (createTouches k s.storage j)
        (createOp k s.storage j))
    else some { setCreator s k .created with storageLock := none }
  | .created =>
    if ok = true then some (setStarted (setCreator s k .running) k .user)
    else some (setCreator s k .failed)
  | .running => some (access (setCreator s k .done) [k] (s.storage.setThread k k))
  | .failed =>
    if s.storageLock = none then
      some { setCreator s k (.destroying 0) with storageLock := some (.creator k) }
    else none
  | .destroying j =>
    if j < destroyOps then
      some (access (setCreator s k (.destroying (j + 1))) (destroyTouches k s.storage j)
        (destroyOp k s.storage j))
    else some { setCreator s k .done with storageLock := none }
  | .done => none

def startedStep (s : State) (k : Nat) : Option State :=
  match s.started k with
  | .absent => none
  | .user => some (setStarted s k .finished)
  | .finished =>
    if s.storageLock = none then
      some { setStarted s k (.destroying 0) with storageLock := some (.started k) }
    else none
  | .destroying j =>
    if j < destroyOps then
      some (access (setStarted s k (.destroying (j + 1))) (destroyTouches k s.storage j)
        (destroyOp k s.storage j))
    else some { setStarted s k .destroyed with storageLock := none }
  | .destroyed => some (setStarted s k .gone)
  | .gone => none

def step (s : State) : Action → Option State
  | .creator k ok => creatorStep s k ok
  | .started k => startedStep s k

open Classical in
/-- Any registered threads, and pairs that have not begun. -/
def Start (s : State) : Prop :=
  ∃ l, Registry s.storage l ∧ s.storageLock = none ∧ s.fault = false ∧
    (∀ k, s.creator k = if k ∈ l then .done else .idle) ∧
    ∀ k, s.started k = if k ∈ l then .user else .absent

/-- A started thread frees its cell only after its creator has written `thread`. -/
def WritesFirst (s : State) : Action → Prop
  | .creator _ _ => True
  | .started k => s.started k = .destroying 4 → s.creator k ≠ .running

instance (s : State) (a : Action) : Decidable (WritesFirst s a) :=
  match a with
  | .creator _ _ => isTrue trivial
  | .started k => inferInstanceAs (Decidable (s.started k = .destroying 4 → s.creator k ≠ .running))

namespace State

def holds (s : State) : Party → Bool
  | .creator k =>
    match s.creator k with
    | .creating _ | .destroying _ => true
    | _ => false
  | .started k =>
    match s.started k with
    | .destroying _ => true
    | _ => false

/-- How far the party is in `destroy_cell`. -/
def destroyed (s : State) : Party → Option Nat
  | .creator k =>
    match s.creator k with
    | .destroying j => some j
    | _ => none
  | .started k =>
    match s.started k with
    | .destroying j => some j
    | _ => none

/-- The cell of the pair is in the list, or was when the lock was taken. -/
def registered (s : State) (k : Nat) : Bool :=
  match s.creator k with
  | .idle | .creating _ => false
  | .created | .running | .failed | .destroying _ => true
  | .done =>
    match s.started k with
    | .user | .finished | .destroying _ => true
    | _ => false

end State

/-- The two threads of a pair. -/
def PairOk : CreatorPc → StartedPc → Prop
  | .running, .user | .running, .finished => True
  | .running, .destroying j => j ≤ 4
  | .running, _ => False
  | .done, .destroying j => j ≤ destroyOps
  | .done, _ => True
  | .creating j, t => t = .absent ∧ j ≤ createOps
  | .destroying j, t => t = .absent ∧ j ≤ destroyOps
  | _, t => t = .absent

/-- The storage is `base`, or what the owner of the lock has made of it so far. -/
inductive Stage (s : State) (base : Storage) : Prop where
  | idle (hl : s.storageLock = none) (hs : s.storage = base)
  | creating (k j : Nat) (hl : s.storageLock = some (.creator k))
      (hpc : s.creator k = .creating j) (hlive : base.live k = true) (hprev : base.prev k = none)
      (hs : s.storage = createUpTo k base j)
  | destroying (p : Party) (j : Nat) (hl : s.storageLock = some p)
      (hpc : s.destroyed p = some j) (hs : s.storage = destroyUpTo p.cell base j)

structure Inv (s : State) : Prop where
  noFault : s.fault = false
  lock : s.storageLock.Tracks s.holds
  pairs : ∀ k, PairOk (s.creator k) (s.started k)
  storage : ∃ base l, Registry base l ∧ (∀ k, k ∈ l ↔ s.registered k = true) ∧ Stage s base

section Preservation

variable {s s' : State} {base : Storage} {l : List Nat} {k j : Nat}

theorem start_inv (h : Start s) : Inv s := by
  obtain ⟨l, hreg, hlock, hfault, hc, ht⟩ := h
  refine ⟨hfault, ?_, fun k => ?_, s.storage, l, hreg, fun k => ?_, .idle hlock rfl⟩
  · intro p
    rw [hlock]
    cases p with
    | creator k =>
      simp only [State.holds, hc]
      by_cases hk : k ∈ l <;> simp [hk]
    | started k =>
      simp only [State.holds, ht]
      by_cases hk : k ∈ l <;> simp [hk]
  · rw [hc, ht]
    by_cases hk : k ∈ l <;> simp [hk, PairOk]
  · rw [State.registered, hc, ht]
    by_cases hk : k ∈ l <;> simp [hk]

/-- Only the program counters of pair `k` change. -/
structure Others (s s' : State) (k : Nat) : Prop where
  creator : ∀ i, i ≠ k → s'.creator i = s.creator i
  started : ∀ i, i ≠ k → s'.started i = s.started i

theorem Others.registered (h : Others s s' k) {i : Nat} (hi : i ≠ k) :
    s'.registered i = s.registered i := by
  simp only [State.registered, h.creator i hi, h.started i hi]

/-- The pair's membership changes as the list does. -/
theorem Others.members {l l' : List Nat} (h : Others s s' k)
    (hl : ∀ i, i ∈ l ↔ s.registered i = true) (hk : k ∈ l' ↔ s'.registered k = true)
    (hi : ∀ i, i ≠ k → (i ∈ l' ↔ i ∈ l)) : ∀ i, i ∈ l' ↔ s'.registered i = true := by
  intro i
  by_cases hik : i = k
  · rw [hik]
    exact hk
  · rw [hi i hik, hl i, h.registered hik]

theorem Others.pairs (h : Others s s' k) (hp : ∀ i, PairOk (s.creator i) (s.started i))
    (hk : PairOk (s'.creator k) (s'.started k)) : ∀ i, PairOk (s'.creator i) (s'.started i) := by
  intro i
  by_cases hik : i = k
  · rw [hik]
    exact hk
  · rw [h.creator i hik, h.started i hik]
    exact hp i

theorem Others.holds (h : Others s s' k) (hc : s'.holds (.creator k) = s.holds (.creator k))
    (ht : s'.holds (.started k) = s.holds (.started k)) : ∀ p, s'.holds p = s.holds p := by
  intro p
  cases p with
  | creator i =>
    by_cases hik : i = k
    · rw [hik]
      exact hc
    · simp only [State.holds, h.creator i hik]
  | started i =>
    by_cases hik : i = k
    · rw [hik]
      exact ht
    · simp only [State.holds, h.started i hik]

/-- The owner of the lock stays where it is. -/
theorem Stage.congr (h : Stage s base) (hl : s'.storageLock = s.storageLock)
    (hs : s'.storage = s.storage)
    (hc : ∀ i, s.storageLock = some (.creator i) → s'.creator i = s.creator i)
    (ht : ∀ i, s.storageLock = some (.started i) → s'.started i = s.started i) :
    Stage s' base := by
  cases h with
  | idle hlock hbase => exact .idle (hl.trans hlock) (hs.trans hbase)
  | creating i j hlock hpc hlive hprev hbase =>
    exact .creating i j (hl.trans hlock) ((hc i hlock).trans hpc) hlive hprev (hs.trans hbase)
  | destroying p j hlock hpc hbase =>
    refine .destroying p j (hl.trans hlock) ?_ (hs.trans hbase)
    rw [← hpc]
    cases p with
    | creator i => simp only [State.destroyed, hc i hlock]
    | started i => simp only [State.destroyed, ht i hlock]

theorem Stage.base_eq (h : Stage s base) (hl : s.storageLock = none) : s.storage = base := by
  cases h with
  | idle _ hs => exact hs
  | creating i j hlock => exact nomatch hl.symm.trans hlock
  | destroying p j hlock => exact nomatch hl.symm.trans hlock

theorem Stage.creating_eq (h : Stage s base) (hl : s.storageLock = some (.creator k))
    (hpc : s.creator k = .creating j) :
    base.live k = true ∧ base.prev k = none ∧ s.storage = createUpTo k base j := by
  cases h with
  | idle hlock => exact nomatch hl.symm.trans hlock
  | creating i j' hlock hpc' hlive hprev hs =>
    cases hl.symm.trans hlock
    cases hpc.symm.trans hpc'
    exact ⟨hlive, hprev, hs⟩
  | destroying p j' hlock hpc' hs =>
    cases hl.symm.trans hlock
    simp only [State.destroyed, hpc] at hpc'
    cases hpc'

theorem Stage.destroying_eq {p : Party} (h : Stage s base) (hl : s.storageLock = some p)
    (hpc : s.destroyed p = some j) : s.storage = destroyUpTo p.cell base j := by
  cases h with
  | idle hlock => exact nomatch hl.symm.trans hlock
  | creating i j' hlock hpc' hlive hprev hs =>
    cases hl.symm.trans hlock
    simp only [State.destroyed, hpc'] at hpc
    cases hpc
  | destroying p' j' hlock hpc' hs =>
    cases hl.symm.trans hlock
    cases hpc.symm.trans hpc'
    exact hs

theorem destroyed_creator : s.destroyed (.creator k) = some j ↔ s.creator k = .destroying j := by
  simp only [State.destroyed]
  split
  · rename_i hpc
    simp [hpc]
  · rename_i hpc
    exact ⟨fun h => (nomatch h), fun h => absurd h (hpc j)⟩

theorem destroyed_started : s.destroyed (.started k) = some j ↔ s.started k = .destroying j := by
  simp only [State.destroyed]
  split
  · rename_i hpc
    simp [hpc]
  · rename_i hpc
    exact ⟨fun h => (nomatch h), fun h => absurd h (hpc j)⟩

theorem holds_of_destroyed {p : Party} (h : s.destroyed p = some j) : s.holds p = true := by
  cases p with
  | creator k => simp only [State.holds, destroyed_creator.mp h]
  | started k => simp only [State.holds, destroyed_started.mp h]

/-- Accesses to allocated cells are no fault. -/
theorem fault_access {cells : List Nat} {storage : Storage} (hf : s.fault = false)
    (hlive : ∀ c, c ∈ cells → s.storage.live c = true) :
    (access s cells storage).fault = false := by
  simp only [access, hf, Bool.false_or, List.any_eq_false]
  intro c hc
  simp [hlive c hc]

/-- A step that neither takes nor has the lock nor touches the storage. -/
theorem Inv.move (h : Inv s) (ho : Others s s' k) (hs : s'.storage = s.storage)
    (hl : s'.storageLock = s.storageLock) (hf : s'.fault = s.fault)
    (hc : s.holds (.creator k) = false ∧ s'.holds (.creator k) = false ∨
      s'.creator k = s.creator k)
    (ht : s.holds (.started k) = false ∧ s'.holds (.started k) = false ∨
      s'.started k = s.started k)
    (hp : PairOk (s'.creator k) (s'.started k)) (hr : s'.registered k = s.registered k) :
    Inv s' := by
  obtain ⟨base, l, hreg, hmem, hstage⟩ := h.storage
  have hck : s'.holds (.creator k) = s.holds (.creator k) := by
    rcases hc with ⟨h₁, h₂⟩ | hc
    · rw [h₁, h₂]
    · simp only [State.holds, hc]
  have htk : s'.holds (.started k) = s.holds (.started k) := by
    rcases ht with ⟨h₁, h₂⟩ | ht
    · rw [h₁, h₂]
    · simp only [State.holds, ht]
  refine ⟨hf.trans h.noFault, ?_, ho.pairs h.pairs hp, base, l, hreg, ?_, ?_⟩
  · rw [hl]
    exact h.lock.keep (ho.holds hck htk)
  · exact ho.members hmem (by rw [hr]; exact hmem k) fun i _ => Iff.rfl
  · refine hstage.congr hl hs (fun i hi => ?_) fun i hi => ?_
    · by_cases hik : i = k
      · subst hik
        rcases hc with ⟨h₁, -⟩ | hc
        · rw [(h.lock _).mp hi] at h₁
          cases h₁
        · exact hc
      · exact ho.creator i hik
    · by_cases hik : i = k
      · subst hik
        rcases ht with ⟨h₁, -⟩ | ht
        · rw [(h.lock _).mp hi] at h₁
          cases h₁
        · exact ht
      · exact ho.started i hik

/-- Only the program counter of `p` changes. -/
structure Moves (s s' : State) (p : Party) : Prop where
  creator : ∀ i, Party.creator i ≠ p → s'.creator i = s.creator i
  started : ∀ i, Party.started i ≠ p → s'.started i = s.started i

theorem Moves.others {p : Party} (h : Moves s s' p) : Others s s' p.cell := by
  constructor
  · intro i hi
    apply h.creator
    rintro rfl
    exact hi rfl
  · intro i hi
    apply h.started
    rintro rfl
    exact hi rfl

theorem Moves.holds {p q : Party} (h : Moves s s' p) (hq : q ≠ p) : s'.holds q = s.holds q := by
  cases q with
  | creator i => simp only [State.holds, h.creator i hq]
  | started i => simp only [State.holds, h.started i hq]

/-- `create_cell_for_thread` begins with a new cell. -/
theorem Inv.create_lock (h : Inv s) (hpc : s.creator k = .idle) (hl : s.storageLock = none)
    (hm : Moves s s' (.creator k)) (hpc' : s'.creator k = .creating 0)
    (hl' : s'.storageLock = some (.creator k)) (hs' : s'.storage = s.storage.calloc k)
    (hf' : s'.fault = s.fault) : Inv s' := by
  obtain ⟨base, l, hreg, hmem, hstage⟩ := h.storage
  have hbase := hstage.base_eq hl
  subst hbase
  have ht' : s'.started k = s.started k := hm.started k (by simp)
  have hout : k ∉ l := by
    rw [hmem k, State.registered, hpc]
    exact Bool.false_ne_true
  have hpair := h.pairs k
  rw [hpc] at hpair
  refine ⟨hf'.trans h.noFault, ?_, hm.others.pairs h.pairs ?_, s.storage.calloc k, l,
    hreg.calloc hout, ?_, ?_⟩
  · rw [hl']
    exact h.lock.lock hl (by simp only [State.holds, hpc']) fun q hq => hm.holds hq
  · rw [show (Party.creator k).cell = k from rfl, hpc', ht']
    exact ⟨hpair, Nat.zero_le _⟩
  · refine hm.others.members hmem ?_ fun _ _ => Iff.rfl
    simp [Party.cell, hout, State.registered, hpc']
  · exact .creating k 0 hl' hpc' (Function.update_self _ _ _) (Function.update_self _ _ _) hs'

theorem Inv.create_op (h : Inv s) (hpc : s.creator k = .creating j) (hj : j < createOps)
    (hm : Moves s s' (.creator k)) (hpc' : s'.creator k = .creating (j + 1))
    (hl' : s'.storageLock = s.storageLock) (hs' : s'.storage = createOp k s.storage j)
    (hf' : s'.fault = (access s (createTouches k s.storage j) s.storage).fault) : Inv s' := by
  obtain ⟨base, l, hreg, hmem, hstage⟩ := h.storage
  have hl : s.storageLock = some (.creator k) := (h.lock _).mpr (by simp only [State.holds, hpc])
  obtain ⟨hlive, hprev, hbase⟩ := hstage.creating_eq hl hpc
  have ht' : s'.started k = s.started k := hm.started k (by simp)
  have hpair := h.pairs k
  rw [hpc] at hpair
  refine ⟨?_, ?_, hm.others.pairs h.pairs ?_, base, l, hreg, ?_, ?_⟩
  · rw [hf']
    refine fault_access h.noFault fun c hc => ?_
    rw [hbase] at hc ⊢
    exact hreg.create_live hlive hj c hc
  · rw [hl']
    refine h.lock.keep fun q => ?_
    by_cases hq : q = .creator k
    · rw [hq]
      simp only [State.holds, hpc, hpc']
    · exact hm.holds hq
  · rw [show (Party.creator k).cell = k from rfl, hpc', ht']
    exact ⟨hpair.1, hj⟩
  · refine hm.others.members hmem ?_ fun _ _ => Iff.rfl
    rw [hmem]
    simp only [Party.cell, State.registered, hpc, hpc']
  · exact .creating k (j + 1) (hl'.trans hl) hpc' hlive hprev (by rw [hs', hbase]; rfl)

/-- The new cell is in the list. -/
theorem Inv.create_unlock (h : Inv s) (hpc : s.creator k = .creating j) (hj : createOps ≤ j)
    (hm : Moves s s' (.creator k)) (hpc' : s'.creator k = .created)
    (hl' : s'.storageLock = none) (hs' : s'.storage = s.storage) (hf' : s'.fault = s.fault) :
    Inv s' := by
  obtain ⟨base, l, hreg, hmem, hstage⟩ := h.storage
  have hheld : s.holds (.creator k) = true := by simp only [State.holds, hpc]
  obtain ⟨hlive, hprev, hbase⟩ := hstage.creating_eq ((h.lock _).mpr hheld) hpc
  have ht' : s'.started k = s.started k := hm.started k (by simp)
  have hpair := h.pairs k
  rw [hpc] at hpair
  have hj4 : j = createOps := le_antisymm hpair.2 hj
  subst hj4
  have hout : k ∉ l := by
    rw [hmem k, State.registered, hpc]
    exact Bool.false_ne_true
  refine ⟨hf'.trans h.noFault, ?_, hm.others.pairs h.pairs ?_, s'.storage, k :: l, ?_, ?_, ?_⟩
  · rw [hl']
    exact h.lock.unlock hheld (by simp only [State.holds, hpc']) fun q hq => hm.holds hq
  · rw [show (Party.creator k).cell = k from rfl, hpc', ht']
    exact hpair.1
  · rw [hs', hbase]
    exact hreg.created hout hlive hprev
  · refine hm.others.members hmem ?_ fun i hi => ?_
    · simp [Party.cell, State.registered, hpc']
    · have hik : i ≠ k := hi
      rw [List.mem_cons, or_iff_right hik]
  · exact .idle hl' rfl

/-- The creator writes `thread` into a cell that is still allocated. -/
theorem Inv.write (h : Inv s) (hpc : s.creator k = .running) (hm : Moves s s' (.creator k))
    (hpc' : s'.creator k = .done) (hl' : s'.storageLock = s.storageLock)
    (hs' : s'.storage = s.storage.setThread k k)
    (hf' : s'.fault = (access s [k] s.storage).fault) : Inv s' := by
  obtain ⟨base, l, hreg, hmem, hstage⟩ := h.storage
  have ht' : s'.started k = s.started k := hm.started k (by simp)
  have hpair := h.pairs k
  rw [hpc] at hpair
  have hin : k ∈ l := (hmem k).mpr (by simp only [State.registered, hpc])
  have hlive : s.storage.live k = true := by
    cases hstage with
    | idle hl hs =>
      rw [hs]
      exact hreg.live k hin
    | creating i j hl hpci hlivei hprev hs =>
      rw [hs, createUpTo_live]
      exact hreg.live k hin
    | destroying p j hl hpcp hs =>
      rw [hs, destroyUpTo_live, if_neg]
      · exact hreg.live k hin
      · rintro ⟨hj, hk⟩
        cases p with
        | creator i =>
          have hik : k = i := hk
          rw [← hik, destroyed_creator, hpc] at hpcp
          cases hpcp
        | started i =>
          have hik : k = i := hk
          rw [← hik, destroyed_started] at hpcp
          rw [hpcp] at hpair
          exact absurd hpair (by simp only [PairOk]; omega)
  refine ⟨?_, ?_, hm.others.pairs h.pairs ?_, base.setThread k k, l, hreg.setThread k k, ?_, ?_⟩
  · rw [hf']
    refine fault_access h.noFault fun c hc => ?_
    rw [List.mem_singleton.mp hc]
    exact hlive
  · rw [hl']
    refine h.lock.keep fun q => ?_
    by_cases hq : q = .creator k
    · rw [hq]
      simp only [State.holds, hpc, hpc']
    · exact hm.holds hq
  · rw [show (Party.creator k).cell = k from rfl, hpc', ht']
    cases hpct : s.started k with
    | destroying j =>
      rw [hpct] at hpair
      exact Nat.le_succ_of_le hpair
    | _ => trivial
  · refine hm.others.members hmem ?_ fun _ _ => Iff.rfl
    rw [hmem]
    cases hpct : s.started k <;>
      simp_all [Party.cell, State.registered, PairOk]
  · cases hstage with
    | idle hl hs => exact .idle (hl'.trans hl) (by rw [hs', hs])
    | creating i j hl hpci hlivei hprev hs =>
      have hne : Party.creator i ≠ .creator k := by
        rintro heq
        cases heq
        exact nomatch hpc.symm.trans hpci
      exact .creating i j (hl'.trans hl) ((hm.creator i hne).trans hpci) hlivei hprev
        (by rw [hs', hs, createUpTo_setThread])
    | destroying p j hl hpcp hs =>
      have hdes : s'.destroyed p = s.destroyed p := by
        cases p with
        | creator i =>
          have hne : Party.creator i ≠ .creator k := by
            rintro heq
            cases heq
            rw [destroyed_creator, hpc] at hpcp
            cases hpcp
          simp only [State.destroyed, hm.creator i hne]
        | started i => simp only [State.destroyed, hm.started i (by simp)]
      exact .destroying p j (hl'.trans hl) (hdes.trans hpcp)
        (by rw [hs', hs, destroyUpTo_setThread])

/-- `destroy_cell` begins. -/
theorem Inv.destroy_lock {p : Party} (h : Inv s) (hl : s.storageLock = none)
    (hm : Moves s s' p) (hpc' : s'.destroyed p = some 0) (hl' : s'.storageLock = some p)
    (hs' : s'.storage = s.storage) (hf' : s'.fault = s.fault)
    (hp : PairOk (s'.creator p.cell) (s'.started p.cell))
    (hr : s'.registered p.cell = s.registered p.cell) : Inv s' := by
  obtain ⟨base, l, hreg, hmem, hstage⟩ := h.storage
  have hbase := hstage.base_eq hl
  subst hbase
  refine ⟨hf'.trans h.noFault, ?_, hm.others.pairs h.pairs hp, s.storage, l, hreg, ?_, ?_⟩
  · rw [hl']
    exact h.lock.lock hl (holds_of_destroyed hpc') fun q hq => hm.holds hq
  · exact hm.others.members hmem (by rw [hr]; exact hmem _) fun _ _ => Iff.rfl
  · exact .destroying p 0 hl' hpc' hs'

theorem Inv.destroy_op {p : Party} (h : Inv s) (hpc : s.destroyed p = some j)
    (hj : j < destroyOps) (hm : Moves s s' p) (hpc' : s'.destroyed p = some (j + 1))
    (hl' : s'.storageLock = s.storageLock) (hs' : s'.storage = destroyOp p.cell s.storage j)
    (hf' : s'.fault = (access s (destroyTouches p.cell s.storage j) s.storage).fault)
    (hp : PairOk (s'.creator p.cell) (s'.started p.cell))
    (hin : s.registered p.cell = true) (hr : s'.registered p.cell = true) : Inv s' := by
  obtain ⟨base, l, hreg, hmem, hstage⟩ := h.storage
  have hl : s.storageLock = some p := (h.lock p).mpr (holds_of_destroyed hpc)
  have hbase := hstage.destroying_eq hl hpc
  have hcell : p.cell ∈ l := (hmem _).mpr hin
  refine ⟨?_, ?_, hm.others.pairs h.pairs hp, base, l, hreg, ?_, ?_⟩
  · rw [hf']
    refine fault_access h.noFault fun c hc => ?_
    rw [hbase] at hc ⊢
    exact hreg.destroy_live hcell hj c hc
  · rw [hl']
    refine h.lock.keep fun q => ?_
    by_cases hq : q = p
    · rw [hq, holds_of_destroyed hpc, holds_of_destroyed hpc']
    · exact hm.holds hq
  · exact hm.others.members hmem (by simp [hcell, hr]) fun _ _ => Iff.rfl
  · exact .destroying p (j + 1) (hl'.trans hl) hpc' (by rw [hs', hbase]; rfl)

/-- The cell is out of the list and freed. -/
theorem Inv.destroy_unlock {p : Party} (h : Inv s) (hpc : s.destroyed p = some destroyOps)
    (hm : Moves s s' p) (hh : s'.holds p = false) (hl' : s'.storageLock = none)
    (hs' : s'.storage = s.storage) (hf' : s'.fault = s.fault)
    (hp : PairOk (s'.creator p.cell) (s'.started p.cell))
    (hin : s.registered p.cell = true) (hr : s'.registered p.cell = false) : Inv s' := by
  obtain ⟨base, l, hreg, hmem, hstage⟩ := h.storage
  have hheld := holds_of_destroyed hpc
  have hbase := hstage.destroying_eq ((h.lock p).mpr hheld) hpc
  obtain ⟨l₁, l₂, hl₁₂⟩ := List.append_of_mem ((hmem _).mpr hin)
  rw [hl₁₂] at hreg
  have hperm : (l₁ ++ p.cell :: l₂).Perm (p.cell :: (l₁ ++ l₂)) := List.perm_middle
  have hout := (List.nodup_cons.mp (hperm.nodup_iff.mp hreg.nodup)).1
  refine ⟨hf'.trans h.noFault, ?_, hm.others.pairs h.pairs hp, s'.storage, l₁ ++ l₂, ?_, ?_, ?_⟩
  · rw [hl']
    exact h.lock.unlock hheld hh fun q hq => hm.holds hq
  · rw [hs', hbase]
    exact hreg.destroyed
  · refine hm.others.members hmem (by simp only [hout, hr, Bool.false_eq_true]) fun i hi => ?_
    rw [hl₁₂, hperm.mem_iff, List.mem_cons, or_iff_right hi]
  · exact .idle hl' rfl

theorem moves_setCreator (s : State) (k : Nat) (pc : CreatorPc) :
    Moves s (setCreator s k pc) (.creator k) := by
  refine ⟨fun i hi => Function.update_of_ne ?_ _ _, fun _ _ => rfl⟩
  rintro rfl
  exact hi rfl

theorem moves_setStarted (s : State) (k : Nat) (pc : StartedPc) :
    Moves s (setStarted s k pc) (.started k) := by
  refine ⟨fun _ _ => rfl, fun i hi => Function.update_of_ne ?_ _ _⟩
  rintro rfl
  exact hi rfl

@[simp] theorem setCreator_self (s : State) (k : Nat) (pc : CreatorPc) :
    (setCreator s k pc).creator k = pc :=
  Function.update_self _ _ _

@[simp] theorem setStarted_self (s : State) (k : Nat) (pc : StartedPc) :
    (setStarted s k pc).started k = pc :=
  Function.update_self _ _ _

theorem creatorStep_inv {ok : Bool} (h : Inv s) (hs : creatorStep s k ok = some s') : Inv s' := by
  have hpair := h.pairs k
  cases hpc : s.creator k with
  | idle =>
    simp only [creatorStep, hpc, Option.ite_none_right_eq_some, Option.some.injEq] at hs
    obtain ⟨hl, rfl⟩ := hs
    have hm := moves_setCreator s k (.creating 0)
    exact h.create_lock hpc hl ⟨hm.creator, hm.started⟩ (setCreator_self ..) rfl rfl rfl
  | creating j =>
    simp only [creatorStep, hpc] at hs
    split at hs
    · rename_i hj
      cases hs
      have hm := moves_setCreator s k (.creating (j + 1))
      exact h.create_op hpc hj ⟨hm.creator, hm.started⟩ (setCreator_self ..) rfl rfl rfl
    · rename_i hj
      cases hs
      have hm := moves_setCreator s k .created
      exact h.create_unlock hpc (Nat.le_of_not_lt hj) ⟨hm.creator, hm.started⟩
        (setCreator_self ..) rfl rfl rfl
  | created =>
    rw [hpc] at hpair
    have hout : s.holds (.creator k) = false := by simp only [State.holds, hpc]
    simp only [creatorStep, hpc] at hs
    split at hs
    · cases hs
      have hm := moves_setCreator s k .running
      have hm' := moves_setStarted (setCreator s k .running) k .user
      have habsent : s.started k = .absent := hpair
      have ht : s.holds (.started k) = false := by simp only [State.holds, habsent]
      refine h.move (k := k) ⟨fun i hi => hm.others.creator i hi, fun i hi => ?_⟩ rfl rfl rfl
        (Or.inl ⟨hout, ?_⟩) (Or.inl ⟨ht, ?_⟩) ?_ ?_
      · exact hm'.others.started i hi
      · simp [State.holds, setStarted]
      · simp [State.holds]
      · simp [PairOk, setStarted]
      · simp [State.registered, hpc, setStarted]
    · cases hs
      refine h.move (moves_setCreator s k .failed).others rfl rfl rfl (Or.inl ⟨hout, ?_⟩)
        (Or.inr rfl) ?_ ?_
      · simp [State.holds, Party.cell]
      · simpa [PairOk, Party.cell, setCreator] using hpair
      · simp [State.registered, Party.cell, hpc]
  | running =>
    simp only [creatorStep, hpc, Option.some.injEq] at hs
    subst hs
    have hm := moves_setCreator s k .done
    exact h.write hpc ⟨hm.creator, hm.started⟩ (setCreator_self ..) rfl rfl rfl
  | failed =>
    rw [hpc] at hpair
    simp only [creatorStep, hpc, Option.ite_none_right_eq_some, Option.some.injEq] at hs
    obtain ⟨hl, rfl⟩ := hs
    have hm := moves_setCreator s k (.destroying 0)
    refine h.destroy_lock (p := .creator k) hl ⟨hm.creator, hm.started⟩ ?_ rfl rfl rfl ?_ ?_
    · simp [State.destroyed, setCreator]
    · simpa [PairOk, Party.cell, setCreator] using hpair
    · simp [State.registered, Party.cell, setCreator, hpc]
  | destroying j =>
    rw [hpc] at hpair
    simp only [creatorStep, hpc] at hs
    split at hs
    · rename_i hj
      cases hs
      have hm := moves_setCreator s k (.destroying (j + 1))
      refine h.destroy_op (p := .creator k) (destroyed_creator.mpr hpc) hj
        ⟨hm.creator, hm.started⟩ ?_ rfl rfl rfl ?_ ?_ ?_
      · simp [State.destroyed, access]
      · simpa [PairOk, Party.cell, access, setCreator] using ⟨hpair.1, hj⟩
      · simp [State.registered, Party.cell, hpc]
      · simp [State.registered, Party.cell, access]
    · rename_i hj
      cases hs
      have hj5 : j = destroyOps := le_antisymm hpair.2 (Nat.le_of_not_lt hj)
      subst hj5
      have hm := moves_setCreator s k .done
      refine h.destroy_unlock (p := .creator k) (destroyed_creator.mpr hpc)
        ⟨hm.creator, hm.started⟩ ?_ rfl rfl rfl ?_ ?_ ?_
      · simp [State.holds, setCreator]
      · simp [PairOk, Party.cell, setCreator, hpair.1]
      · simp [State.registered, Party.cell, hpc]
      · simp [State.registered, Party.cell, setCreator, hpair.1]
  | done =>
    simp only [creatorStep, hpc] at hs
    cases hs

theorem startedStep_inv (h : Inv s) (hok : WritesFirst s (.started k))
    (hs : startedStep s k = some s') : Inv s' := by
  have hpair := h.pairs k
  cases hpc : s.started k with
  | absent =>
    simp only [startedStep, hpc] at hs
    cases hs
  | user =>
    simp only [startedStep, hpc, Option.some.injEq] at hs
    subst hs
    rw [hpc] at hpair
    refine h.move (moves_setStarted s k .finished).others rfl rfl rfl (Or.inr rfl)
      (Or.inl ⟨?_, ?_⟩) ?_ ?_
    · simp [State.holds, Party.cell, hpc]
    · simp [State.holds, Party.cell]
    · cases hc : s.creator k <;> simp_all [PairOk, Party.cell, setStarted]
    · cases hc : s.creator k <;> simp_all [State.registered, Party.cell, setStarted]
  | finished =>
    simp only [startedStep, hpc, Option.ite_none_right_eq_some, Option.some.injEq] at hs
    obtain ⟨hl, rfl⟩ := hs
    rw [hpc] at hpair
    have hm := moves_setStarted s k (.destroying 0)
    refine h.destroy_lock (p := .started k) hl ⟨hm.creator, hm.started⟩ ?_ rfl rfl rfl ?_ ?_
    · simp [State.destroyed, setStarted]
    · cases hc : s.creator k <;> simp_all [PairOk, Party.cell, setStarted]
    · cases hc : s.creator k <;> simp_all [State.registered, Party.cell, setStarted]
  | destroying j =>
    rw [hpc] at hpair
    simp only [startedStep, hpc] at hs
    split at hs
    · rename_i hj
      cases hs
      have hm := moves_setStarted s k (.destroying (j + 1))
      refine h.destroy_op (p := .started k) (destroyed_started.mpr hpc) hj
        ⟨hm.creator, hm.started⟩ ?_ rfl rfl rfl ?_ ?_ ?_
      · simp [State.destroyed, access]
      · have hfree := hok
        simp only [WritesFirst, hpc] at hfree
        cases hc : s.creator k <;> simp_all [PairOk, Party.cell, access, setStarted]
        all_goals omega
      · cases hc : s.creator k <;> simp_all [PairOk, State.registered, Party.cell]
      · cases hc : s.creator k <;>
          simp_all [PairOk, State.registered, Party.cell, access, setStarted]
    · rename_i hj
      cases hs
      have hm := moves_setStarted s k .destroyed
      have hdone : s.creator k = .done ∧ j = destroyOps := by
        cases hc : s.creator k <;> simp_all [PairOk, destroyOps] <;> omega
      obtain ⟨hdone, rfl⟩ := hdone
      refine h.destroy_unlock (p := .started k) (destroyed_started.mpr hpc)
        ⟨hm.creator, hm.started⟩ ?_ rfl rfl rfl ?_ ?_ ?_
      · simp [State.holds, setStarted]
      · simp [PairOk, Party.cell, setStarted, hdone]
      · simp [State.registered, Party.cell, hdone, hpc]
      · simp [State.registered, Party.cell, setStarted, hdone]
  | destroyed =>
    simp only [startedStep, hpc, Option.some.injEq] at hs
    subst hs
    rw [hpc] at hpair
    refine h.move (moves_setStarted s k .gone).others rfl rfl rfl (Or.inr rfl)
      (Or.inl ⟨?_, ?_⟩) ?_ ?_
    · simp [State.holds, Party.cell, hpc]
    · simp [State.holds, Party.cell]
    · cases hc : s.creator k <;> simp_all [PairOk, Party.cell, setStarted]
    · cases hc : s.creator k <;> simp_all [PairOk, State.registered, Party.cell, setStarted]
  | gone =>
    simp only [startedStep, hpc] at hs
    cases hs

end Preservation

/-- If each creator writes `thread` before the started thread frees the cell, no cell is accessed
or freed after it was freed. -/
theorem no_access_after_free {s : State}
    (h : Transition.Reachable Start step WritesFirst s) : s.fault = false := by
  refine (h.invariant (P := Inv) (fun s => start_inv) fun s a s' hs hok hstep => ?_).noFault
  cases a with
  | creator k ok => exact creatorStep_inv hs hstep
  | started k => exact startedStep_inv hs hok hstep

/-- No thread is registered. -/
def noThreads : State where
  storage := ⟨fun _ => 0, fun _ => none, fun _ => none, fun _ => false, none, 0⟩
  storageLock := none
  creator := fun _ => .idle
  started := fun _ => .absent
  fault := false

theorem noThreads_start : Start noThreads := by
  refine ⟨[], ⟨⟨none, rfl, rfl⟩, List.nodup_nil, fun c hc => (nomatch hc), rfl⟩, rfl, rfl,
    fun k => ?_, fun k => ?_⟩
  · simp [noThreads]
  · simp [noThreads]

/-- Pair 0 creates its cell and starts the thread. -/
def createAndStart : List Action := List.replicate 7 (.creator 0 true)

/-- The started thread ends and frees its cell. -/
def endAndFree : List Action := List.replicate 9 (.started 0)

theorem no_access_after_free_pair :
    ∃ s : State, s.started 0 = .gone ∧ s.creator 0 = .done ∧ s.fault = false := by
  have hstart : Transition.Reachable Start step WritesFirst noThreads := .init noThreads_start
  obtain ⟨s, hr, hs, hc⟩ := hstart.exists_of_run
    (createAndStart ++ .creator 0 true :: endAndFree)
    (fun s => s.started 0 = .gone ∧ s.creator 0 = .done) (by decide +kernel)
  exact ⟨s, hs, hc, no_access_after_free hr⟩

/-- The started thread ends before its creator writes `thread` into the cell. -/
theorem write_after_free :
    ¬ ∀ s, Transition.Reachable Start step Transition.anyStep s → s.fault = false := by
  intro h
  have hstart : Transition.Reachable Start step Transition.anyStep noThreads :=
    .init noThreads_start
  obtain ⟨s, hr, hfault⟩ := hstart.exists_of_run
    (createAndStart ++ endAndFree ++ [.creator 0 true]) (fun s => s.fault = true)
    (by decide +kernel)
  rw [h s hr] at hfault
  cases hfault

end GarbageCollector.CellLifetime
