import GarbageCollector.LinkedList
import GarbageCollector.Sync
import GarbageCollector.ThreadsStorage
import GarbageCollector.Transition

/-!
# The signals of `stop_the_world`

`stop_the_world` up to its barrier against threads that end and call `destroy_cell`. The service
thread counts the registry under `storage_lock` but walks the list without it; each read of the
walk is a step. Threads are created at no step: `thread_creation_lock` is held for writing.
-/

namespace GarbageCollector.SignalWalk

open Sync ThreadsStorage LinkedList

/-- Where the service thread is in `stop_the_world`. -/
inductive ServicePc where
  | outside
  | locked
  /-- In `get_threads_storage_size`, with `storage_lock`. -/
  | counting
  | counted
  | ready
  | walking
  /-- In `get_next_thread`, before `current_node_of_traversing->thread` is read. -/
  | reading (cell : Nat)
  | advancing (cell thread : Nat)
  | signalling (thread : Nat)
  | atBarrier
  deriving DecidableEq, Repr

/-- Where a thread is in `wrap_user_routine`. -/
inductive ThreadPc where
  | absent
  | user
  | finished
  | destroying (j : Nat)
  | gone
  deriving DecidableEq, Repr

/-- The variables of the service thread, with the threads it has signalled. -/
structure Walker where
  pc : ServicePc
  threadsStopped : Nat
  barrierCount : Nat
  currentNode : Option Nat
  signalled : List Nat

/-- `none` is the service thread. The cell of thread `c` is `c`. `fault` records an access to a
cell that is not allocated. -/
structure State where
  storage : Storage
  storageLock : Mutex (Option Nat)
  thread : Nat → ThreadPc
  service : Walker
  fault : Bool

inductive Action where
  | service
  | thread (c : Nat)
  deriving DecidableEq, Repr

def setThread (s : State) (c : Nat) (pc : ThreadPc) : State :=
  { s with thread := Function.update s.thread c pc }

/-- The fault flag after accesses to `cells`. -/
def faultAfter (s : State) (cells : List Nat) : Bool :=
  s.fault || cells.any fun c => !s.storage.live c

def serviceStep (s : State) : Option State :=
  let w := s.service
  match w.pc with
  | .outside => some { s with service := { w with pc := .locked } }
  | .locked =>
    if s.storageLock = none then
      some { s with service := { w with pc := .counting }, storageLock := some none }
    else none
  | .counting =>
    some { s with
      service := { w with
        pc := .counted, threadsStopped := s.storage.threadCount, signalled := [] }
      storageLock := none }
  | .counted =>
    some { s with service := { w with pc := .ready, barrierCount := w.threadsStopped + 1 } }
  | .ready =>
    some { s with
      service := { w with pc := .walking, currentNode := s.storage.createdThreadsList } }
  | .walking =>
    match w.currentNode with
    | none => some { s with service := { w with pc := .atBarrier } }
    | some cell => some { s with service := { w with pc := .reading cell } }
  | .reading cell =>
    some { s with
      service := { w with pc := .advancing cell (s.storage.thread cell) }
      fault := faultAfter s [cell] }
  | .advancing cell thread =>
    some { s with
      service := { w with pc := .signalling thread, currentNode := s.storage.next cell }
      fault := faultAfter s [cell] }
  | .signalling thread =>
    some { s with service := { w with pc := .walking, signalled := thread :: w.signalled } }
  | .atBarrier => none

def threadStep (s : State) (c : Nat) : Option State :=
  match s.thread c with
  | .absent => none
  | .user => some (setThread s c .finished)
  | .finished =>
    if s.storageLock = none then
      some { setThread s c (.destroying 0) with storageLock := some (some c) }
    else none
  | .destroying j =>
    if j < destroyOps then
      some { setThread s c (.destroying (j + 1)) with
        storage := destroyOp c s.storage j
        fault := faultAfter s (destroyTouches c s.storage j) }
    else some { setThread s c .gone with storageLock := none }
  | .gone => none

def step (s : State) : Action → Option State
  | .service => serviceStep s
  | .thread c => threadStep s c

open Classical in
/-- Any registry of running threads, so that the barrier can count them and the service thread. -/
def Start (s : State) : Prop :=
  ∃ l, Registry s.storage l ∧ l.length < uintMax ∧ (∀ c, c ∈ l → s.storage.thread c = c) ∧
    (∀ c, s.thread c = if c ∈ l then .user else .absent) ∧
    s.storageLock = none ∧ s.service.pc = .outside ∧ s.fault = false

/-- Between the count and the end of the walk. -/
def ServicePc.window : ServicePc → Bool
  | .outside | .locked | .counting | .atBarrier => false
  | _ => true

/-- The thread is in `destroy_cell` past `thread_count--`. -/
def ThreadPc.unlinks : ThreadPc → Bool
  | .destroying j => 1 ≤ j
  | _ => false

/-- Between the count and the end of the walk no thread unlinks and frees its cell before it has
been signalled. -/
def LeavesSignalled (s : State) : Action → Prop
  | .service => True
  | .thread c =>
    (s.thread c).unlinks = true → s.service.pc.window = true → c ∈ s.service.signalled

instance (s : State) (a : Action) : Decidable (LeavesSignalled s a) :=
  match a with
  | .service => isTrue trivial
  | .thread c => inferInstanceAs (Decidable
      ((s.thread c).unlinks = true → s.service.pc.window = true → c ∈ s.service.signalled))

def ThreadPc.registered : ThreadPc → Bool
  | .user | .finished | .destroying _ => true
  | .absent | .gone => false

def State.holds (s : State) : Option Nat → Bool
  | none => s.service.pc = .counting
  | some c =>
    match s.thread c with
    | .destroying _ => true
    | _ => false

/-- The storage is `base`, or what a thread in `destroy_cell` has made of it so far. -/
inductive Stage (s : State) (base : Storage) : Prop where
  | idle (hl : s.storageLock = none ∨ s.storageLock = some none) (hs : s.storage = base)
  | destroying (c j : Nat) (hl : s.storageLock = some (some c)) (hj : j ≤ destroyOps)
      (hpc : s.thread c = .destroying j) (hs : s.storage = destroyUpTo c base j)

/-- The walk stands before the cells `rest`. -/
def At (next : Nat → Option Nat) (current : Option Nat) (rest : List Nat) : ServicePc → Prop
  | .walking => IsList next current rest
  | .reading cell => IsList next (some cell) rest
  | .advancing cell thread => thread = cell ∧ IsList next (some cell) rest
  | .signalling thread => ∃ rest', rest = thread :: rest' ∧ IsList next current rest'
  | _ => False

/-- The registered cells `l` end with the cells that are not signalled yet. -/
structure Walking (w : Walker) (l : List Nat) (next : Nat → Option Nat) (rest : List Nat) :
    Prop where
  suffix : ∃ done, l = done ++ rest
  count : w.signalled.length + rest.length = w.threadsStopped
  barrier : w.barrierCount = w.threadsStopped + 1
  once : w.signalled.Nodup
  fresh : ∀ c, c ∈ rest → c ∉ w.signalled
  place : At next w.currentNode rest w.pc

def Walk (w : Walker) (l : List Nat) (next : Nat → Option Nat) : Prop :=
  match w.pc with
  | .outside | .locked | .counting => True
  | .counted => w.threadsStopped = l.length ∧ w.signalled = []
  | .ready =>
    w.threadsStopped = l.length ∧ w.signalled = [] ∧ w.barrierCount = w.threadsStopped + 1
  | .atBarrier => w.signalled.Nodup ∧ w.signalled.length + 1 = w.barrierCount
  | _ => ∃ rest, Walking w l next rest

structure Inv (s : State) : Prop where
  noFault : s.fault = false
  lock : s.storageLock.Tracks s.holds
  storage : ∃ base l, Registry base l ∧ (∀ c, c ∈ l ↔ (s.thread c).registered = true) ∧
    (∀ c, c ∈ l → base.thread c = c) ∧ Stage s base ∧ Walk s.service l base.next
  leaving : s.service.pc.window = true →
    ∀ c j, s.thread c = .destroying j → 2 ≤ j → c ∈ s.service.signalled

section Preservation

variable {s s' : State} {w : Walker} {base : Storage} {l rest : List Nat}
  {next next' : Nat → Option Nat} {current : Option Nat} {pc : ServicePc} {c j : Nat}

theorem start_inv (h : Start s) : Inv s := by
  obtain ⟨l, hreg, -, hids, ht, hlock, hpc, hfault⟩ := h
  refine ⟨hfault, ?_, ⟨s.storage, l, hreg, fun c => ?_, hids, .idle (Or.inl hlock) rfl, ?_⟩, ?_⟩
  · intro p
    rw [hlock]
    cases p with
    | none => simp [State.holds, hpc]
    | some c =>
      simp only [State.holds, ht]
      by_cases hc : c ∈ l <;> simp [hc]
  · rw [ht]
    by_cases hc : c ∈ l <;> simp [hc, ThreadPc.registered]
  · simp only [Walk, hpc]
  · intro hw
    rw [hpc] at hw
    cases hw

theorem At.congr (h : At next current rest pc) (same : ∀ c, c ∈ rest → next' c = next c) :
    At next' current rest pc := by
  cases pc with
  | walking => exact IsList.congr h same
  | reading cell => exact IsList.congr h same
  | advancing cell thread => exact ⟨h.1, IsList.congr h.2 same⟩
  | signalling thread =>
    obtain ⟨rest', rfl, hlist⟩ := h
    exact ⟨rest', rfl, hlist.congr fun c hc => same c (List.mem_cons_of_mem _ hc)⟩
  | _ => exact h

/-- The cell that the walk reads is among those not signalled yet. -/
theorem Walking.mem_rest (h : Walking w l next rest) (hpc : pc = w.pc)
    (hc : pc = .reading c ∨ ∃ t, pc = .advancing c t) : c ∈ rest := by
  have hplace := h.place
  rw [← hpc] at hplace
  have hlist : IsList next (some c) rest := by
    rcases hc with rfl | ⟨t, rfl⟩
    · exact hplace
    · exact hplace.2
  cases rest with
  | nil => cases hlist
  | cons b rest =>
    cases hlist.1
    exact List.mem_cons_self

theorem Walking.mem_list (h : Walking w l next rest) (hc : c ∈ rest) : c ∈ l := by
  obtain ⟨done, rfl⟩ := h.suffix
  exact List.mem_append_right _ hc

/-- The walk moves on without a signal. -/
theorem Walking.moved (h : Walking w l next rest) (hplace : At next current rest pc) :
    Walking { w with pc := pc, currentNode := current } l next rest :=
  ⟨h.suffix, h.count, h.barrier, h.once, h.fresh, hplace⟩

/-- The thread at hand is signalled: it was the first of those that were not. -/
theorem Walking.signal (h : Walking w l next rest) (hn : l.Nodup) (hpc : w.pc = .signalling c) :
    ∃ rest', Walking { w with pc := .walking, signalled := c :: w.signalled } l next rest' := by
  have hplace := h.place
  rw [hpc] at hplace
  obtain ⟨rest', rfl, hlist⟩ := hplace
  obtain ⟨done, hdone⟩ := h.suffix
  rw [hdone] at hn
  have hout := (List.nodup_cons.mp (List.nodup_append'.mp hn).2.1).1
  have hcount := h.count
  rw [List.length_cons] at hcount
  refine ⟨rest', ⟨done ++ [c], by simp [hdone]⟩, ?_, h.barrier, ?_, fun d hd => ?_, hlist⟩
  · simp only [List.length_cons]
    omega
  · exact List.nodup_cons.mpr ⟨h.fresh c List.mem_cons_self, h.once⟩
  · rw [List.mem_cons, not_or]
    refine ⟨?_, h.fresh d (List.mem_cons_of_mem _ hd)⟩
    rintro rfl
    exact hout hd

/-- `destroy_cell` of a signalled thread leaves the cells alone that are still to be read. -/
theorem Walking.destroy_next (h : Walking w l base.next rest) (hreg : Registry base l)
    (hc : 2 ≤ j → c ∈ w.signalled) (hcl : c ∈ l) :
    ∀ i, i ∈ rest → (destroyUpTo c base j).next i = base.next i := by
  obtain ⟨done, rfl⟩ := h.suffix
  intro i hi
  rw [destroyUpTo_next, if_neg]
  rintro ⟨hj, hprev⟩
  have hdone : c ∈ done := by
    rcases List.mem_append.mp hcl with hd | hr
    · exact hd
    · exact absurd (hc hj) (h.fresh c hr)
  obtain ⟨l₁, l₂, rfl⟩ := List.append_of_mem hdone
  have hreg' : Registry base (l₁ ++ c :: (l₂ ++ rest)) := by
    simpa using hreg
  have hi₁ := hreg'.prev_mem hprev
  exact (List.nodup_append'.mp hreg'.nodup).2.2 hi₁ (by simp [hi])

/-- Stage only looks at the lock, the threads and the storage. -/
theorem Stage.congr (h : Stage s base) (hl : s'.storageLock = s.storageLock)
    (hs : s'.storage = s.storage)
    (ht : ∀ c, s.storageLock = some (some c) → s'.thread c = s.thread c) : Stage s' base := by
  cases h with
  | idle hlock hbase => exact .idle (hl ▸ hlock) (hs.trans hbase)
  | destroying c j hlock hj hpc hbase =>
    exact .destroying c j (hl.trans hlock) hj ((ht c hlock).trans hpc) (hs.trans hbase)

/-- A step of the service thread that neither takes nor gives up the lock. -/
theorem Inv.serve (h : Inv s) {fault : Bool} (hpc : s.service.pc ≠ .counting)
    (hpc' : w.pc ≠ .counting) (hf : fault = false)
    (hwalk : ∀ base l, Registry base l → (∀ c, c ∈ l ↔ (s.thread c).registered = true) →
      (∀ c, c ∈ l → base.thread c = c) → Stage s base →
      Walk s.service l base.next → Walk w l base.next)
    (hleave : w.pc.window = true → s.service.pc.window = true)
    (hsent : s.service.signalled ⊆ w.signalled) : Inv { s with service := w, fault := fault } := by
  obtain ⟨base, l, hreg, hmem, hids, hstage, hw⟩ := h.storage
  refine ⟨hf, h.lock.keep fun p => ?_, ⟨base, l, hreg, hmem, hids,
    hstage.congr rfl rfl fun _ _ => rfl, hwalk base l hreg hmem hids hstage hw⟩, ?_⟩
  · cases p with
    | none => simp [State.holds, hpc, hpc']
    | some c => rfl
  · intro hwin c j hc hj
    exact hsent (h.leaving (hleave hwin) c j hc hj)

theorem fault_service (h : Inv s) (hw : ∀ base l, Registry base l → Stage s base →
      Walk s.service l base.next → c ∈ l ∧ c ∉ s.service.signalled)
    (hwin : s.service.pc.window = true) : faultAfter s [c] = false := by
  obtain ⟨base, l, hreg, -, -, hstage, hwalk⟩ := h.storage
  obtain ⟨hcl, hout⟩ := hw base l hreg hstage hwalk
  have hlive : s.storage.live c = true := by
    cases hstage with
    | idle hl hs =>
      rw [hs]
      exact hreg.live c hcl
    | destroying d j hl hj hpc hs =>
      rw [hs, destroyUpTo_live, if_neg]
      · exact hreg.live c hcl
      · rintro ⟨hj5, rfl⟩
        exact hout (h.leaving hwin c j hpc (by omega))
  simp [faultAfter, h.noFault, hlive]

/-- The walk reads only cells that are allocated. -/
theorem Inv.reads (h : Inv s)
    (hpc : s.service.pc = .reading c ∨ ∃ i, s.service.pc = .advancing c i) :
    faultAfter s [c] = false := by
  refine fault_service h (fun base l hreg hstage hw => ?_) ?_
  · obtain ⟨rest, hrest⟩ : ∃ rest, Walking s.service l base.next rest := by
      rcases hpc with hpc | ⟨i, hpc⟩ <;> simpa only [Walk, hpc] using hw
    have hin := hrest.mem_rest rfl hpc
    exact ⟨hrest.mem_list hin, hrest.fresh c hin⟩
  · rcases hpc with hpc | ⟨i, hpc⟩ <;> rw [hpc] <;> rfl

/-- `storage_lock` is taken to count the cells. -/
theorem Inv.locks (h : Inv s) (hl : s.storageLock = none) :
    Inv { s with service := { s.service with pc := .counting }, storageLock := some none } := by
  obtain ⟨base, l, hreg, hmem, hids, hstage, hw⟩ := h.storage
  refine ⟨h.noFault, h.lock.lock hl (by simp [State.holds]) fun p hp => ?_,
    ⟨base, l, hreg, hmem, hids, ?_, trivial⟩, nofun⟩
  · cases p with
    | none => exact absurd rfl hp
    | some c => rfl
  · cases hstage with
    | idle _ hs => exact .idle (Or.inr rfl) hs
    | destroying c j hlock => exact nomatch hl.symm.trans hlock

/-- With `storage_lock` no cell is being destroyed, so that all of them are counted. -/
theorem Inv.counts (h : Inv s) (hpc : s.service.pc = .counting) :
    Inv { s with
      service := { s.service with
        pc := .counted, threadsStopped := s.storage.threadCount, signalled := [] }
      storageLock := none } := by
  obtain ⟨base, l, hreg, hmem, hids, hstage, hw⟩ := h.storage
  have hheld : s.holds none = true := by simp [State.holds, hpc]
  have hlock := (h.lock none).mpr hheld
  have hbase : s.storage = base := by
    cases hstage with
    | idle _ hs => exact hs
    | destroying c j hl => exact nomatch hlock.symm.trans hl
  refine ⟨h.noFault, h.lock.unlock hheld (by simp [State.holds]) fun p hp => ?_,
    ⟨base, l, hreg, hmem, hids, .idle (Or.inl rfl) hbase, ?_, rfl⟩, fun _ c j hc _ => ?_⟩
  · cases p with
    | none => exact absurd rfl hp
    | some c => rfl
  · rw [hbase]
    exact hreg.count
  · have hown : s.holds (some c) = true := by
      simp only [State.holds]
      rw [show s.thread c = .destroying j from hc]
    exact nomatch h.lock.unique hheld hown

/-- Before the first signal no thread can take its cell out of the list, and the walk starts before
all of them. -/
theorem Inv.starts (h : Inv s) (hpc : s.service.pc = .ready) :
    Inv { s with service :=
      { s.service with pc := .walking, currentNode := s.storage.createdThreadsList } } := by
  refine h.serve (by rw [hpc]; nofun) nofun h.noFault ?_ (fun _ => by rw [hpc]; rfl)
    fun _ hc => hc
  intro base l hreg hmem hids hstage hw
  simp only [Walk, hpc] at hw
  obtain ⟨hcount, hnone, hbarrier⟩ := hw
  have hhead : s.storage.createdThreadsList = base.createdThreadsList := by
    cases hstage with
    | idle hl hs => rw [hs]
    | destroying d j hl hj hpcd hs =>
      rw [hs, destroyUpTo_head, if_neg]
      rintro ⟨hj4, -⟩
      have hd := h.leaving (by rw [hpc]; rfl) d j hpcd (by omega)
      rw [hnone] at hd
      cases hd
  obtain ⟨last, hseg⟩ := hreg.linked
  refine ⟨l, ⟨[], rfl⟩, ?_, hbarrier, ?_, ?_, ?_⟩
  · simp [hnone, hcount]
  · simp [hnone]
  · simp [hnone]
  · rw [hhead]
    exact segment_isList hseg

/-- At the end of the list every thread that was counted has been signalled. -/
theorem Inv.ends (h : Inv s) (hpc : s.service.pc = .walking) (hcur : s.service.currentNode = none) :
    Inv { s with service := { s.service with pc := .atBarrier } } := by
  refine h.serve (by rw [hpc]; nofun) nofun h.noFault ?_ nofun fun _ hc => hc
  intro base l hreg hmem hids hstage hw
  simp only [Walk, hpc] at hw
  obtain ⟨rest, hrest⟩ := hw
  have hplace := hrest.place
  rw [hpc, hcur] at hplace
  have hnil : rest = [] := by
    cases rest with
    | nil => rfl
    | cons b rest => exact nomatch hplace.1
  have hcount := hrest.count
  rw [hnil] at hcount
  exact ⟨hrest.once, by rw [hrest.barrier, ← hcount]; rfl⟩

theorem Inv.reaches (h : Inv s) (hpc : s.service.pc = .walking)
    (hcur : s.service.currentNode = some c) :
    Inv { s with service := { s.service with pc := .reading c } } := by
  refine h.serve (by rw [hpc]; nofun) nofun h.noFault ?_ (fun _ => by rw [hpc]; rfl)
    fun _ hc => hc
  intro base l hreg hmem hids hstage hw
  simp only [Walk, hpc] at hw
  obtain ⟨rest, hrest⟩ := hw
  have hplace := hrest.place
  rw [hpc, hcur] at hplace
  exact ⟨rest, hrest.moved hplace⟩

/-- The cell read is still the thread's own. -/
theorem Inv.readThread (h : Inv s) (hpc : s.service.pc = .reading c) :
    Inv { s with
      service := { s.service with pc := .advancing c (s.storage.thread c) }
      fault := faultAfter s [c] } := by
  refine h.serve (by rw [hpc]; nofun) nofun (h.reads (Or.inl hpc)) ?_ (fun _ => by rw [hpc]; rfl)
    fun _ hc => hc
  intro base l hreg hmem hids hstage hw
  simp only [Walk, hpc] at hw
  obtain ⟨rest, hrest⟩ := hw
  have hcl := hrest.mem_list (hrest.mem_rest hpc.symm (Or.inl rfl))
  have hthread : s.storage.thread c = c := by
    apply Eq.trans _ (hids c hcl)
    cases hstage with
    | idle hl hs => rw [hs]
    | destroying d j hl hj hpcd hs => rw [hs, destroyUpTo_thread]
  have hplace := hrest.place
  rw [hpc] at hplace
  exact ⟨rest, hrest.moved ⟨hthread, hplace⟩⟩

/-- The cell's successor is the one it had in the registry that was counted. -/
theorem Inv.advances {i : Nat} (h : Inv s) (hpc : s.service.pc = .advancing c i) :
    Inv { s with
      service := { s.service with pc := .signalling i, currentNode := s.storage.next c }
      fault := faultAfter s [c] } := by
  refine h.serve (by rw [hpc]; nofun) nofun (h.reads (Or.inr ⟨i, hpc⟩)) ?_
    (fun _ => by rw [hpc]; rfl) fun _ hc => hc
  intro base l hreg hmem hids hstage hw
  simp only [Walk, hpc] at hw
  obtain ⟨rest, hrest⟩ := hw
  have hnext : s.storage.next c = base.next c := by
    cases hstage with
    | idle hl hs => rw [hs]
    | destroying d j hl hj hpcd hs =>
      have hdl : d ∈ l := (hmem d).mpr (by rw [hpcd]; rfl)
      rw [hs, hrest.destroy_next hreg (h.leaving (by rw [hpc]; rfl) d j hpcd) hdl]
      exact hrest.mem_rest hpc.symm (Or.inr ⟨i, rfl⟩)
  have hplace := hrest.place
  rw [hpc] at hplace
  obtain ⟨rfl, hlist⟩ := hplace
  cases rest with
  | nil => cases hlist
  | cons b rest =>
    cases hlist.1
    refine ⟨i :: rest, hrest.moved ⟨rest, rfl, ?_⟩⟩
    rw [hnext]
    exact hlist.2

theorem Inv.signals (h : Inv s) (hpc : s.service.pc = .signalling c) :
    Inv { s with
      service := { s.service with pc := .walking, signalled := c :: s.service.signalled } } := by
  refine h.serve (by rw [hpc]; nofun) nofun h.noFault ?_ (fun _ => by rw [hpc]; rfl)
    fun _ hc => List.mem_cons_of_mem _ hc
  intro base l hreg hmem hids hstage hw
  simp only [Walk, hpc] at hw
  obtain ⟨rest, hrest⟩ := hw
  exact hrest.signal hreg.nodup hpc

theorem serviceStep_inv (h : Inv s) (hs : serviceStep s = some s') : Inv s' := by
  cases hpc : s.service.pc with
  | outside =>
    simp only [serviceStep, hpc, Option.some.injEq] at hs
    subst hs
    refine h.serve (by rw [hpc]; nofun) nofun h.noFault ?_ nofun fun _ hc => hc
    exact fun _ _ _ _ _ _ _ => trivial
  | locked =>
    simp only [serviceStep, hpc, Option.ite_none_right_eq_some, Option.some.injEq] at hs
    obtain ⟨hl, rfl⟩ := hs
    exact h.locks hl
  | counting =>
    simp only [serviceStep, hpc, Option.some.injEq] at hs
    subst hs
    exact h.counts hpc
  | counted =>
    simp only [serviceStep, hpc, Option.some.injEq] at hs
    subst hs
    refine h.serve (by rw [hpc]; nofun) nofun h.noFault ?_ (fun _ => by rw [hpc]; rfl)
      fun _ hc => hc
    intro base l hreg hmem hids hstage hw
    simp only [Walk, hpc] at hw
    exact ⟨hw.1, hw.2, rfl⟩
  | ready =>
    simp only [serviceStep, hpc, Option.some.injEq] at hs
    subst hs
    exact h.starts hpc
  | walking =>
    cases hcur : s.service.currentNode with
    | none =>
      simp only [serviceStep, hpc, hcur, Option.some.injEq] at hs
      subst hs
      rw [← hcur]
      exact h.ends hpc hcur
    | some cell =>
      simp only [serviceStep, hpc, hcur, Option.some.injEq] at hs
      subst hs
      rw [← hcur]
      exact h.reaches hpc hcur
  | reading cell =>
    simp only [serviceStep, hpc, Option.some.injEq] at hs
    subst hs
    exact h.readThread hpc
  | advancing cell thread =>
    simp only [serviceStep, hpc, Option.some.injEq] at hs
    subst hs
    exact h.advances hpc
  | signalling thread =>
    simp only [serviceStep, hpc, Option.some.injEq] at hs
    subst hs
    exact h.signals hpc
  | atBarrier =>
    simp only [serviceStep, hpc] at hs
    cases hs

/-- Only thread `c` moves. -/
structure Moves (s s' : State) (c : Nat) : Prop where
  thread : ∀ i, i ≠ c → s'.thread i = s.thread i
  service : s'.service = s.service

theorem Moves.holds {p : Option Nat} (h : Moves s s' c) (hp : p ≠ some c) :
    s'.holds p = s.holds p := by
  cases p with
  | none => simp only [State.holds, h.service]
  | some i =>
    have hi : i ≠ c := fun hic => hp (congrArg some hic)
    simp only [State.holds, h.thread i hi]

theorem Moves.members (h : Moves s s' c) (hmem : ∀ i, i ∈ l ↔ (s.thread i).registered = true)
    (hc : (s'.thread c).registered = (s.thread c).registered) :
    ∀ i, i ∈ l ↔ (s'.thread i).registered = true := by
  intro i
  by_cases hi : i = c
  · rw [hi, hc]
    exact hmem c
  · rw [h.thread i hi]
    exact hmem i

theorem Moves.leaving (hm : Moves s s' c) (h : Inv s)
    (hc : s.service.pc.window = true → ∀ j, s'.thread c = .destroying j → 2 ≤ j →
      c ∈ s.service.signalled) :
    s'.service.pc.window = true →
      ∀ i j, s'.thread i = .destroying j → 2 ≤ j → i ∈ s'.service.signalled := by
  rw [hm.service]
  intro hwin i j hi hj
  by_cases hic : i = c
  · subst hic
    exact hc hwin j hi hj
  · rw [hm.thread i hic] at hi
    exact h.leaving hwin i j hi hj

theorem moves_setThread (s : State) (c : Nat) (pc : ThreadPc) : Moves s (setThread s c pc) c :=
  ⟨fun _ hi => Function.update_of_ne hi _ _, rfl⟩

theorem holds_destroying (h : s.thread c = .destroying j) : s.holds (some c) = true := by
  simp only [State.holds, h]

theorem Inv.finish (h : Inv s) (hpc : s.thread c = .user) : Inv (setThread s c .finished) := by
  obtain ⟨base, l, hreg, hmem, hids, hstage, hw⟩ := h.storage
  have hm := moves_setThread s c .finished
  have hpc' : (setThread s c .finished).thread c = .finished := Function.update_self _ _ _
  have hnot : s.holds (some c) = false := by simp only [State.holds, hpc]
  refine ⟨h.noFault, h.lock.keep fun p => ?_,
    ⟨base, l, hreg, hm.members hmem ?_, hids, hstage.congr rfl rfl fun d hd => ?_, hw⟩,
    hm.leaving h fun _ j hj _ => ?_⟩
  · by_cases hp : p = some c
    · rw [hp, hnot]
      simp only [State.holds, hpc']
    · exact hm.holds hp
  · rw [hpc, hpc']
    rfl
  · apply hm.thread
    rintro rfl
    rw [(h.lock _).mp hd] at hnot
    cases hnot
  · rw [hpc'] at hj
    cases hj

theorem Inv.enter (h : Inv s) (hpc : s.thread c = .finished) (hl : s.storageLock = none) :
    Inv { setThread s c (.destroying 0) with storageLock := some (some c) } := by
  obtain ⟨base, l, hreg, hmem, hids, hstage, hw⟩ := h.storage
  have hm : Moves s { setThread s c (.destroying 0) with storageLock := some (some c) } c :=
    ⟨(moves_setThread s c _).thread, rfl⟩
  have hpc' : (setThread s c (.destroying 0)).thread c = .destroying 0 :=
    Function.update_self _ _ _
  have hbase : s.storage = base := by
    cases hstage with
    | idle _ hs => exact hs
    | destroying d j hlock => exact nomatch hl.symm.trans hlock
  refine ⟨h.noFault, h.lock.lock hl (holds_destroying hpc') fun p hp => hm.holds hp,
    ⟨base, l, hreg, hm.members hmem ?_, hids, .destroying c 0 rfl (Nat.zero_le _) hpc' hbase, hw⟩,
    hm.leaving h fun _ j hj h2 => ?_⟩
  · exact (congrArg ThreadPc.registered hpc').trans (by rw [hpc]; rfl)
  · cases hpc'.symm.trans hj
    omega

/-- The thread that is in `destroy_cell` has the lock. -/
theorem Stage.destroying_eq (h : Stage s base) (hl : s.storageLock = some (some c))
    (hpc : s.thread c = .destroying j) : j ≤ destroyOps ∧ s.storage = destroyUpTo c base j := by
  cases h with
  | idle hlock _ =>
    rw [hl] at hlock
    rcases hlock with hlock | hlock
    · cases hlock
    · cases hlock
  | destroying d i hlock hi hpc' hs =>
    cases hl.symm.trans hlock
    cases hpc.symm.trans hpc'
    exact ⟨hi, hs⟩

theorem Inv.operate (h : Inv s) (hpc : s.thread c = .destroying j) (hj : j < destroyOps)
    (hg : LeavesSignalled s (.thread c)) :
    Inv { setThread s c (.destroying (j + 1)) with
      storage := destroyOp c s.storage j
      fault := faultAfter s (destroyTouches c s.storage j) } := by
  obtain ⟨base, l, hreg, hmem, hids, hstage, hw⟩ := h.storage
  have hl := (h.lock _).mpr (holds_destroying hpc)
  obtain ⟨-, hs⟩ := hstage.destroying_eq hl hpc
  have hcl : c ∈ l := (hmem c).mpr (by rw [hpc]; rfl)
  have hm : Moves s { setThread s c (.destroying (j + 1)) with
      storage := destroyOp c s.storage j
      fault := faultAfter s (destroyTouches c s.storage j) } c :=
    ⟨(moves_setThread s c _).thread, rfl⟩
  have hpc' : (setThread s c (.destroying (j + 1))).thread c = .destroying (j + 1) :=
    Function.update_self _ _ _
  refine ⟨?_, h.lock.keep fun p => ?_, ⟨base, l, hreg, hm.members hmem ?_, hids,
    .destroying c (j + 1) hl hj hpc' ?_, hw⟩, hm.leaving h fun hwin i hi h2 => ?_⟩
  · simp only [faultAfter, h.noFault, Bool.false_or, List.any_eq_false]
    intro i hi
    rw [hs] at hi ⊢
    simp [hreg.destroy_live hcl hj i hi]
  · by_cases hp : p = some c
    · rw [hp, holds_destroying hpc]
      exact holds_destroying hpc'
    · exact hm.holds hp
  · exact (congrArg ThreadPc.registered hpc').trans (by rw [hpc]; rfl)
  · exact congrArg (destroyOp c · j) hs
  · cases hpc'.symm.trans hi
    exact hg (by rw [hpc]; exact decide_eq_true (by omega)) hwin

theorem erased (h : Registry base l) (hc : c ∈ l) :
    Registry (destroyUpTo c base destroyOps) (l.erase c) := by
  obtain ⟨l₁, l₂, rfl⟩ := List.append_of_mem hc
  have hout : c ∉ l₁ := fun hin => (List.nodup_append'.mp h.nodup).2.2 hin List.mem_cons_self
  rw [List.erase_append_right _ hout, List.erase_cons_head]
  exact h.destroyed

/-- The walk goes on without the cell of a signalled thread. -/
theorem Walk.erase (h : Walk w l base.next) (hreg : Registry base l) (hcl : c ∈ l)
    (hc : w.pc.window = true → c ∈ w.signalled) :
    Walk w (l.erase c) (destroyUpTo c base destroyOps).next := by
  unfold Walk at h ⊢
  cases hpc : w.pc with
  | outside | locked | counting => trivial
  | atBarrier =>
    simp only [hpc] at h
    exact h
  | counted | ready =>
    simp only [hpc] at h
    have hin := hc (by rw [hpc]; rfl)
    simp only [h] at hin
    cases hin
  | _ =>
    simp only [hpc] at h ⊢
    obtain ⟨rest, hrest⟩ := h
    have hin := hc (by rw [hpc]; rfl)
    have hnext := hrest.destroy_next (j := destroyOps) hreg (fun _ => hin) hcl
    obtain ⟨done, rfl⟩ := hrest.suffix
    have hdone : c ∈ done := by
      rcases List.mem_append.mp hcl with hd | hr
      · exact hd
      · exact absurd hin (hrest.fresh c hr)
    exact ⟨rest, ⟨done.erase c, List.erase_append_left _ hdone⟩, hrest.count, hrest.barrier,
      hrest.once, hrest.fresh, hrest.place.congr hnext⟩

theorem Inv.leave (h : Inv s) (hpc : s.thread c = .destroying j) (hj : ¬j < destroyOps) :
    Inv { setThread s c .gone with storageLock := none } := by
  obtain ⟨base, l, hreg, hmem, hids, hstage, hw⟩ := h.storage
  have hheld := holds_destroying hpc
  obtain ⟨hle, hs⟩ := hstage.destroying_eq ((h.lock _).mpr hheld) hpc
  have hj5 : j = destroyOps := le_antisymm hle (not_lt.mp hj)
  subst hj5
  have hcl : c ∈ l := (hmem c).mpr (by rw [hpc]; rfl)
  have hm : Moves s { setThread s c .gone with storageLock := none } c :=
    ⟨(moves_setThread s c _).thread, rfl⟩
  have hpc' : (setThread s c .gone).thread c = .gone := Function.update_self _ _ _
  refine ⟨h.noFault, h.lock.unlock hheld ?_ fun p hp => hm.holds hp,
    ⟨s.storage, l.erase c, ?_, fun i => ?_, fun i hi => ?_, .idle (Or.inl rfl) rfl, ?_⟩,
    hm.leaving h fun _ i hi _ => ?_⟩
  · simp only [State.holds, hpc']
  · rw [hs]
    exact erased hreg hcl
  · rw [hreg.nodup.mem_erase_iff]
    by_cases hi : i = c
    · rw [hi]
      exact iff_of_false (fun hne => hne.1 rfl) (by
        rw [show ThreadPc.registered _ = ThreadPc.registered .gone from
          congrArg ThreadPc.registered hpc']
        exact Bool.false_ne_true)
    · rw [and_iff_right hi, hm.thread i hi]
      exact hmem i
  · rw [hs, destroyUpTo_thread]
    exact hids i (List.mem_of_mem_erase hi)
  · rw [hs]
    exact hw.erase hreg hcl fun hwin => h.leaving hwin c _ hpc (by decide)
  · rw [hpc'] at hi
    cases hi

theorem threadStep_inv (h : Inv s) (hg : LeavesSignalled s (.thread c))
    (hs : threadStep s c = some s') : Inv s' := by
  cases hpc : s.thread c with
  | absent | gone =>
    simp only [threadStep, hpc] at hs
    cases hs
  | user =>
    simp only [threadStep, hpc, Option.some.injEq] at hs
    subst hs
    exact h.finish hpc
  | finished =>
    simp only [threadStep, hpc, Option.ite_none_right_eq_some, Option.some.injEq] at hs
    obtain ⟨hl, rfl⟩ := hs
    exact h.enter hpc hl
  | destroying j =>
    simp only [threadStep, hpc] at hs
    by_cases hj : j < destroyOps
    · rw [if_pos hj] at hs
      cases hs
      exact h.operate hpc hj hg
    · rw [if_neg hj] at hs
      cases hs
      exact h.leave hpc hj

theorem step_inv {a : Action} (h : Inv s) (hg : LeavesSignalled s a) (hs : step s a = some s') :
    Inv s' := by
  cases a with
  | service => exact serviceStep_inv h hs
  | thread c => exact threadStep_inv h hg hs

end Preservation

/-- If no thread unlinks its cell between the count and its signal, the walk reads no freed cell
and signals as many threads as the barrier waits for. -/
theorem signals_match {s : State} (h : Transition.Reachable Start step LeavesSignalled s) :
    s.fault = false ∧ (s.service.pc = .atBarrier →
      s.service.signalled.Nodup ∧ s.service.signalled.length + 1 = s.service.barrierCount) := by
  have hinv : Inv s := h.invariant (fun s => start_inv) fun s a s' hs hok => step_inv hs hok
  refine ⟨hinv.noFault, fun hpc => ?_⟩
  obtain ⟨base, l, -, -, -, -, hw⟩ := hinv.storage
  simpa only [Walk, hpc] using hw

/-- Thread 0 alone is registered. -/
def oneThread : State where
  storage := ⟨fun _ => 0, fun _ => none, fun _ => none, fun c => c == 0, some 0, 1⟩
  storageLock := none
  thread := fun c => if c = 0 then .user else .absent
  service := ⟨.outside, 0, 0, none, []⟩
  fault := false

theorem oneThread_start : Start oneThread := by
  refine ⟨[0], ⟨⟨some 0, rfl, rfl, rfl, rfl⟩, by simp, fun c hc => ?_, rfl⟩, by decide,
    fun c hc => ?_, fun c => ?_, rfl, rfl, rfl⟩
  · simp_all [oneThread]
  · simp_all [oneThread]
  · simp [oneThread]

/-- The thread ends and frees its cell. -/
def endAndFree : List Action := List.replicate 8 (.thread 0)

/-- Threads 0 and 1 are registered, the cell of thread 0 first. -/
def twoThreads : State where
  storage := ⟨fun c => c, fun c => if c = 0 then some 1 else none,
    fun c => if c = 1 then some 0 else none, fun c => decide (c < 2), some 0, 2⟩
  storageLock := none
  thread := fun c => if c = 0 ∨ c = 1 then .user else .absent
  service := ⟨.outside, 0, 0, none, []⟩
  fault := false

theorem twoThreads_start : Start twoThreads := by
  refine ⟨[0, 1], ⟨⟨some 1, rfl, rfl, rfl, rfl, rfl, rfl⟩, by simp, fun c hc => ?_, rfl⟩,
    by decide, fun c _ => rfl, fun c => ?_, rfl, rfl, rfl⟩
  · simp only [List.mem_cons, List.not_mem_nil, or_false] at hc
    rcases hc with rfl | rfl <;> rfl
  · simp [twoThreads]

/-- Thread 0 ends and frees its cell after its own signal and before the walk reads the next
cell. -/
theorem signals_match_two_threads :
    ∃ s : State, s.service.pc = .atBarrier ∧ s.thread 0 = .gone ∧ s.service.signalled = [1, 0] ∧
      s.fault = false ∧ s.service.signalled.length + 1 = s.service.barrierCount := by
  have hstart : Transition.Reachable Start step LeavesSignalled twoThreads :=
    .init twoThreads_start
  obtain ⟨s, hr, hpc, hgone, hsignalled⟩ := hstart.exists_of_run
    (List.replicate 9 .service ++ endAndFree ++ List.replicate 5 .service)
    (fun s => s.service.pc = .atBarrier ∧ s.thread 0 = .gone ∧ s.service.signalled = [1, 0])
    (by decide +kernel)
  obtain ⟨hfault, hmatch⟩ := signals_match hr
  exact ⟨s, hpc, hgone, hsignalled, hfault, (hmatch hpc).2⟩

/-- The thread ends after it was counted; the walk goes on in its freed cell. -/
theorem walk_reads_freed :
    ¬ ∀ s, Transition.Reachable Start step Transition.anyStep s → s.fault = false ∧
      (s.service.pc = .atBarrier →
        s.service.signalled.length + 1 = s.service.barrierCount) := by
  intro h
  have hstart : Transition.Reachable Start step Transition.anyStep oneThread :=
    .init oneThread_start
  obtain ⟨s, hr, hfault⟩ := hstart.exists_of_run
    (List.replicate 7 .service ++ endAndFree ++ [.service]) (fun s => s.fault = true)
    (by decide +kernel)
  rw [(h s hr).1] at hfault
  cases hfault

end GarbageCollector.SignalWalk
