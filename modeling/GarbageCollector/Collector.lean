import GarbageCollector.Marking
import GarbageCollector.QuietHeap
import GarbageCollector.Transition

/-!
# The collector in a program with one thread

`gc_malloc` of `gc.c` with the collection that it triggers, and the runs of a program that calls
it and writes to its memory. A step of a run is one attempt to allocate, one `mark`, one `sweep`
or one store of a word.
-/

namespace GarbageCollector

open Bytes

structure Gc where
  heap : Heap
  nodesCache : NodesCache
  /-- The mark stack. -/
  stack : Stack

section Functions

variable (cfg : Config) (fuel : Nat) (segments : List (Nat × Nat)) (g : Gc)

def allocateNewObject (size : Nat) : Option (Gc × Option Nat) :=
  if 1 ≤ size ∧ size ≤ maxObjectSize then
    (allocateSmallObject cfg fuel g.heap.small g.nodesCache size).map fun p =>
      (⟨⟨p.1, g.heap.large⟩, p.2.1, g.stack⟩, p.2.2)
  else if maxObjectSize < size ∧ size ≤ cfg.heapSize then
    (allocateLargeObject fuel g.heap.large size).map fun p =>
      (⟨⟨g.heap.small, p.1⟩, g.nodesCache, g.stack⟩, p.2)
  else some (g, none)

/-- The signal handler clears the cache of the stopped thread, then `mark` runs. -/
def stopAndMark : Option Gc :=
  (mark cfg fuel ⟨g.heap, g.stack⟩ segments).map fun m =>
    ⟨m.heap, clearCache g.nodesCache, m.stack⟩

def sweep : Option Gc :=
  (sweepLargeHeap fuel g.heap.large).map fun large =>
    ⟨⟨sweepSmallHeap cfg g.heap.small, large⟩, g.nodesCache, g.stack⟩

/-- The caller waits until the service thread has started the world again. -/
def callServiceThread : Option Gc :=
  (stopAndMark cfg fuel segments g).bind (sweep cfg fuel)

def gcMalloc (size : Nat) : Option (Gc × Option Nat) :=
  if size < 1 ∨ cfg.heapSize < size then some (g, none)
  else
    (allocateNewObject cfg fuel g size).bind fun p =>
      match p.2 with
      | some res => some (p.1, some res)
      | none =>
        (callServiceThread cfg fuel segments p.1).bind fun g =>
          allocateNewObject cfg fuel g size

end Functions

namespace Collector

/-- Where the program is in a call of `gc_malloc` for size `n`. -/
inductive Phase where
  | mutator
  /-- The first attempt has failed. -/
  | failed (n : Nat)
  | marked (n : Nat)
  | swept (n : Nat)
  deriving DecidableEq

/-- An address that `gc_malloc` has returned, with the size asked for. -/
structure Answer where
  addr : Nat
  size : Nat
  /-- There was no collection since. -/
  fresh : Bool
  /-- Every collection since has marked the object. -/
  kept : Bool
  deriving DecidableEq

structure State where
  gc : Gc
  phase : Phase
  /-- All answers so far, the latest first. -/
  answers : List Answer
  /-- The memory that the last sweep read. -/
  sweptMem : Mem

/-- `fuel` bounds the recursions and loops of the step. -/
inductive Action where
  | malloc (n fuel : Nat)
  | mark (fuel : Nat)
  | sweep (fuel : Nat)
  | retry (fuel : Nat)
  | store (w value : Nat)
  deriving DecidableEq

/-- Enough for every recursion on the occupied tree and for all objects on the mark stack. -/
def depth (cfg : Config) : Nat := 2 * cfg.heapSize + cfg.treenodeCount + 1

def Action.Deep (cfg : Config) : Action → Prop
  | .malloc _ fuel | .mark fuel | .sweep fuel | .retry fuel => depth cfg < fuel
  | .store _ _ => True

instance (cfg : Config) (a : Action) : Decidable (a.Deep cfg) := by
  cases a <;> simp only [Action.Deep] <;> infer_instance

/-- The root words: stack, data and bss. None of them overlaps a heap. -/
structure Roots (cfg : Config) where
  segments : List (Nat × Nat)
  bounds : ∀ s, s ∈ segments → s.1 ≠ 0 ∧ s.1 < s.2
  apart : ∀ s, s ∈ segments → ∀ w, w ∈ words s.1 s.2 → w + 8 ≤ cfg.smallStart ∨ cfg.smallEnd ≤ w
  apartLarge : ∀ s, s ∈ segments → ∀ w, w ∈ words s.1 s.2 →
    w + 8 ≤ cfg.largeStart ∨ cfg.largeEnd ≤ w

/-- The word at `w` overlaps no block header. -/
def Writable (cfg : Config) (w : Nat) : Prop :=
  ∀ b, b < cfg.blocksCount → w + 8 ≤ cfg.blockAddr b ∨ cfg.blockAddr b + blockHeaderSize ≤ w

instance (cfg : Config) (w : Nat) : Decidable (Writable cfg w) :=
  inferInstanceAs (Decidable (∀ b, b < _ → _))

def Gc.store (g : Gc) (w value : Nat) : Gc :=
  { g with heap := g.heap.setMem (store64 g.heap.mem w value) }

/-- The answer after a collection that has marked `h`. -/
def Answer.collect (cfg : Config) (fuel : Nat) (h : Heap) (x : Answer) : Answer :=
  { x with
    fresh := false
    kept := x.kept && isMarked cfg fuel h x.addr == some true }

/-- The state after an attempt for size `n` with this result, when `phase` follows a failure. -/
def State.attempted (s : State) (n : Nat) (phase : Phase) (p : Gc × Option Nat) : State :=
  match p.2 with
  | some r => { s with
      gc := p.1
      phase := .mutator
      answers := ⟨r, n, true, true⟩ :: s.answers }
  | none => { s with gc := p.1, phase := phase }

def State.afterMark (s : State) (n : Nat) (g : Gc) : State := { s with gc := g, phase := .marked n }

def State.afterSweep (cfg : Config) (fuel : Nat) (s : State) (n : Nat) (g : Gc) : State where
  gc := g
  phase := .swept n
  answers := s.answers.map (Answer.collect cfg fuel s.gc.heap)
  sweptMem := s.gc.heap.mem

def State.store (s : State) (w value : Nat) : State := { s with gc := Gc.store s.gc w value }

section Step

variable (cfg : Config) (roots : Roots cfg)

/-- One step of a run; a program may store into anything but block headers. -/
def step (s : State) (a : Action) : Option State :=
  if a.Deep cfg then
    match a, s.phase with
    | .malloc n fuel, .mutator =>
      if n < 1 ∨ cfg.heapSize < n then some s
      else (allocateNewObject cfg fuel s.gc n).map (s.attempted n (.failed n))
    | .mark fuel, .failed n =>
      (stopAndMark cfg fuel roots.segments s.gc).map (s.afterMark n)
    | .sweep fuel, .marked n =>
      (GarbageCollector.sweep cfg fuel s.gc).map (s.afterSweep cfg fuel n)
    | .retry fuel, .swept n =>
      (allocateNewObject cfg fuel s.gc n).map (s.attempted n .mutator)
    | .store w value, .mutator =>
      if Writable cfg w then some (s.store w value) else none
    | _, _ => none
  else none

/-- The collector after the constructors have run on a mapping that reads as zero. -/
def initialGc (m : Mem) : Gc where
  heap := ⟨initSmallAllocator cfg m, initLargeAllocator cfg⟩
  nodesCache := fun _ => none
  stack := createStack

def initial (m : Mem) : State where
  gc := initialGc cfg m
  phase := .mutator
  answers := []
  sweptMem := (initSmallAllocator cfg m).mem

def Start (s : State) : Prop := ∃ m, ZeroedSmallHeap cfg m ∧ s = initial cfg m

abbrev Reachable (ok : State → Action → Prop) : State → Prop :=
  Transition.Reachable (Start cfg) (step cfg roots) ok

/-- Every outcome of `step`, with the call that led to it. -/
inductive Outcome (s : State) : Action → State → Prop where
  | refused {n fuel} (hphase : s.phase = .mutator) (hn : n < 1 ∨ cfg.heapSize < n) :
      Outcome s (.malloc n fuel) s
  | malloc {n fuel p} (hphase : s.phase = .mutator) (hn : 1 ≤ n ∧ n ≤ cfg.heapSize)
      (hfuel : depth cfg < fuel) (h : allocateNewObject cfg fuel s.gc n = some p) :
      Outcome s (.malloc n fuel) (s.attempted n (.failed n) p)
  | mark {n fuel g} (hphase : s.phase = .failed n) (hfuel : depth cfg < fuel)
      (h : stopAndMark cfg fuel roots.segments s.gc = some g) :
      Outcome s (.mark fuel) (s.afterMark n g)
  | sweep {n fuel g} (hphase : s.phase = .marked n) (hfuel : depth cfg < fuel)
      (h : GarbageCollector.sweep cfg fuel s.gc = some g) :
      Outcome s (.sweep fuel) (s.afterSweep cfg fuel n g)
  | retry {n fuel p} (hphase : s.phase = .swept n) (hfuel : depth cfg < fuel)
      (h : allocateNewObject cfg fuel s.gc n = some p) :
      Outcome s (.retry fuel) (s.attempted n .mutator p)
  | store {w value} (hphase : s.phase = .mutator) (hw : Writable cfg w) :
      Outcome s (.store w value) (s.store w value)

variable {cfg roots} {s s' : State} {a : Action}

theorem step_outcome (h : step cfg roots s a = some s') : Outcome cfg roots s a s' := by
  simp only [step] at h
  split at h
  · rename_i hfuel
    split at h
    · rename_i hphase
      split at h
      · rename_i hn
        cases h
        exact .refused hphase hn
      · obtain ⟨p, hp, rfl⟩ := Option.map_eq_some_iff.mp h
        exact .malloc hphase (by omega) hfuel hp
    · rename_i hphase
      obtain ⟨g, hg, rfl⟩ := Option.map_eq_some_iff.mp h
      exact .mark hphase hfuel hg
    · rename_i hphase
      obtain ⟨g, hg, rfl⟩ := Option.map_eq_some_iff.mp h
      exact .sweep hphase hfuel hg
    · rename_i hphase
      obtain ⟨p, hp, rfl⟩ := Option.map_eq_some_iff.mp h
      exact .retry hphase hfuel hp
    · rename_i hphase
      split at h
      · rename_i hw
        cases h
        exact .store hphase hw
      · cases h
    · cases h
  · cases h

/-- A call of `gc_malloc` that returns is a run of its steps. -/
theorem gcMalloc_run {n fuel : Nat} {g : Gc} {res : Option Nat} (hphase : s.phase = .mutator)
    (hfuel : depth cfg < fuel)
    (h : gcMalloc cfg fuel roots.segments s.gc n = some (g, res)) :
    ∃ as s', Transition.run (step cfg roots) Transition.anyStep s as = some s' ∧ s'.gc = g ∧
      s'.phase = .mutator ∧ ∀ r, res = some r → s'.answers.head? = some ⟨r, n, true, true⟩ := by
  rw [gcMalloc] at h
  split at h
  · cases h
    exact ⟨[], s, rfl, rfl, hphase, nofun⟩
  · rename_i hn
    obtain ⟨⟨g₁, res₁⟩, hfirst, h⟩ := Option.bind_eq_some_iff.mp h
    have hmalloc : step cfg roots s (.malloc n fuel) =
        some (s.attempted n (.failed n) (g₁, res₁)) := by
      simp only [step, Action.Deep, if_pos hfuel, hphase, if_neg hn, hfirst, Option.map_some]
    cases res₁ with
    | some r =>
      cases h
      refine ⟨[.malloc n fuel], s.attempted n (.failed n) (g₁, some r), ?_, rfl, rfl, ?_⟩
      · simp only [Transition.run, Transition.anyStep, if_true, hmalloc, Option.bind_some]
      · rintro _ ⟨⟩
        rfl
    | none =>
      obtain ⟨g₃, hcollect, hsecond⟩ := Option.bind_eq_some_iff.mp h
      obtain ⟨g₂, hmark, hsweep⟩ := Option.bind_eq_some_iff.mp hcollect
      have hmark' : step cfg roots (s.attempted n (.failed n) (g₁, none)) (.mark fuel) =
          some ((s.attempted n (.failed n) (g₁, none)).afterMark n g₂) := by
        simp only [step, Action.Deep, if_pos hfuel, State.attempted, hmark, Option.map_some]
      generalize s.attempted n (.failed n) (g₁, none) = s₁ at hmalloc hmark'
      have hsweep' : step cfg roots (s₁.afterMark n g₂) (.sweep fuel) =
          some ((s₁.afterMark n g₂).afterSweep cfg fuel n g₃) := by
        simp only [step, Action.Deep, if_pos hfuel, State.afterMark, hsweep, Option.map_some]
      generalize s₁.afterMark n g₂ = s₂ at hmark' hsweep'
      have hretry : step cfg roots (s₂.afterSweep cfg fuel n g₃) (.retry fuel) =
          some ((s₂.afterSweep cfg fuel n g₃).attempted n .mutator (g, res)) := by
        simp only [step, Action.Deep, if_pos hfuel, State.afterSweep, hsecond, Option.map_some]
      generalize s₂.afterSweep cfg fuel n g₃ = s₃ at hsweep' hretry
      refine ⟨[.malloc n fuel, .mark fuel, .sweep fuel, .retry fuel],
        s₃.attempted n .mutator (g, res), ?_, ?_⟩
      · simp only [Transition.run, Transition.anyStep, if_true, hmalloc, hmark', hsweep', hretry,
          Option.bind_some]
      · cases res with
        | some r =>
          refine ⟨rfl, rfl, ?_⟩
          rintro _ ⟨⟩
          rfl
        | none => exact ⟨rfl, rfl, nofun⟩

end Step

end Collector

end GarbageCollector
