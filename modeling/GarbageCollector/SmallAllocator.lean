import GarbageCollector.Bitmap
import GarbageCollector.LinkedList

/-!
# The small allocator

`small-allocator.c`. A node of `NODES_LIST` is its index. `allocate_small_object` is a step
function on the shared heap and the calling thread: one step is one locked list operation,
one slot examined, one bitmap zeroed or one piece of thread-local work. A call alone is the
run of these steps to its return.
-/

namespace GarbageCollector

open Bytes LinkedList

structure SmallHeap where
  mem : Mem
  segregList : Nat → Option Nat
  nextNode : Nat → Option Nat
  emptyListHead : Option Nat

/-- `nodes_cache`, thread-local. -/
abbrev NodesCache := Nat → Option Nat

def clearCache (cache : NodesCache) : NodesCache :=
  fun i => if i < objectSizeUpperBound then none else cache i

/-- `__init_small_allocator` on the memory that `mmap` returned. -/
def initSmallAllocator (cfg : Config) (m : Mem) : SmallHeap where
  mem := (List.range cfg.blocksCount).foldl (fun m i =>
    store64 m (getSliderPositionAddr (cfg.blockAddr i)) (cfg.blockAddr i + blockHeaderSize)) m
  segregList := fun _ => none
  nextNode := fun i => if i ≠ cfg.blocksCount - 1 then some (i + 1) else none
  emptyListHead := some 0

def initHeader (cfg : Config) (m : Mem) (entry objectSize : Nat) : Mem :=
  let blockAddr := cfg.blockAddr entry
  let m := store64 m (getObjectSizeAddr blockAddr) objectSize
  let m := store64 m (getSliderPositionAddr blockAddr) (blockAddr + blockHeaderSize)
  zeroBitmap m blockAddr

def allocateNewBlock (s : SmallHeap) : Option Nat × SmallHeap :=
  match s.emptyListHead with
  | none => (none, s)
  | some result =>
    (some result, { s with
      emptyListHead := s.nextNode result
      nextNode := Function.update s.nextNode result none })

def getBlockFromSegregList (s : SmallHeap) (objectSize : Nat) : Option Nat × SmallHeap :=
  match s.segregList objectSize with
  | none => (none, s)
  | some currEntry =>
    (some currEntry, { s with
      segregList := Function.update s.segregList objectSize (s.nextNode currEntry) })

/-- Where a thread is in `allocate_small_object`; `n` is the requested size. -/
inductive Pc where
  | idle
  | enter (n : Nat)
  | takeSegreg (n : Nat)
  | takeEmpty (n : Nat)
  | initHeader (n entry : Nat)
  | examine (n entry sliderPosition : Nat) (isCheckingCache : Bool)
  | finish (n entry : Nat)
  /-- `fill_all_bitmaps_with_zeros` before it reads `SEGREG_LIST[i]`. -/
  | fillList (n i : Nat)
  | fillNode (n i entry : Nat)
  | returned (n : Nat) (res : Option Nat)
  deriving DecidableEq, Repr

structure Local where
  pc : Pc
  nodesCache : NodesCache

def Local.goto (l : Local) (pc : Pc) : Local := { l with pc := pc }

def Local.setCache (l : Local) (n : Nat) (entry : Option Nat) : Local :=
  { l with nodesCache := Function.update l.nodesCache n entry }

def SmallHeap.setMem (s : SmallHeap) (m : Mem) : SmallHeap := { s with mem := m }

/-- One step of `allocate_small_object`. -/
def localStep (cfg : Config) (s : SmallHeap) (l : Local) : Option (SmallHeap × Local) :=
  match l.pc with
  | .idle | .returned _ _ => none
  | .enter n =>
    match l.nodesCache n with
    | some b => some (s, l.goto (.examine n b (slider cfg s.mem b) true))
    | none => some (s, l.goto (.takeSegreg n))
  | .takeSegreg n =>
    match getBlockFromSegregList s n with
    | (some b, s') => some (s', l.goto (.examine n b (slider cfg s.mem b) false))
    | (none, s') => some (s', l.goto (.takeEmpty n))
  | .takeEmpty n =>
    match allocateNewBlock s with
    | (some b, s') => some (s', l.goto (.initHeader n b))
    | (none, s') => some (s', l.goto (.fillList n 1))
  | .initHeader n b => some (s.setMem (initHeader cfg s.mem b n), l.goto (.finish n b))
  | .examine n b sliderPosition isCheckingCache =>
    if sliderPosition + getSizeWithAlignment n ≤ cfg.blockAddr b + blockSize then
      if getBitByAddress cfg s.mem sliderPosition = 0#8 then
        some (s.setMem (store64 s.mem (getSliderPositionAddr (cfg.blockAddr b)) sliderPosition),
          l.goto (.finish n b))
      else
        some (s.setMem (setBitByAddress cfg s.mem sliderPosition 0#8),
          l.goto (.examine n b (sliderPosition + getSizeWithAlignment n) isCheckingCache))
    else if isCheckingCache = true then some (s, (l.setCache n none).goto (.takeSegreg n))
    else some (s, l.goto (.takeSegreg n))
  | .finish n b =>
    let sliderPosition := slider cfg s.mem b
    let newSliderPosition := sliderPosition + getSizeWithAlignment n
    let entry := if newSliderPosition ≥ cfg.blockAddr b + blockSize then none else some b
    some (s.setMem (store64 s.mem (getSliderPositionAddr (cfg.blockAddr b)) newSliderPosition),
      (l.setCache n entry).goto (.returned n (some sliderPosition)))
  | .fillList n i =>
    if i < objectSizeUpperBound then
      match s.segregList i with
      | none => some (s, l.goto (.fillList n (i + 1)))
      | some b => some (s, l.goto (.fillNode n i b))
    else some (s, l.goto (.returned n none))
  | .fillNode n i b =>
    some (s.setMem (zeroBitmap s.mem (cfg.blockAddr b)),
      l.goto (match s.nextNode b with
        | none => .fillList n (i + 1)
        | some c => .fillNode n i c))

/-- The steps of one call, run alone to its return. -/
def localRun (cfg : Config) : Nat → SmallHeap → Local → Option (SmallHeap × Local × Option Nat)
  | 0, _, _ => none
  | fuel + 1, s, l =>
    match l.pc with
    | .returned _ res => some (s, l, res)
    | _ => (localStep cfg s l).bind fun p => localRun cfg fuel p.1 p.2

def allocateSmallObject (cfg : Config) (fuel : Nat) (s : SmallHeap) (cache : NodesCache)
    (objectSize : Nat) : Option (SmallHeap × NodesCache × Option Nat) :=
  (localRun cfg fuel s ⟨.enter objectSize, cache⟩).map fun p => (p.1, p.2.1.nodesCache, p.2.2)

@[simp] theorem Local.goto_pc (l : Local) (pc : Pc) : (l.goto pc).pc = pc := rfl

@[simp] theorem Local.goto_nodesCache (l : Local) (pc : Pc) :
    (l.goto pc).nodesCache = l.nodesCache := rfl

@[simp] theorem Local.setCache_nodesCache (l : Local) (n : Nat) (entry : Option Nat) :
    (l.setCache n entry).nodesCache = Function.update l.nodesCache n entry := rfl

@[simp] theorem SmallHeap.setMem_mem (s : SmallHeap) (m : Mem) : (s.setMem m).mem = m := rfl

@[simp] theorem SmallHeap.setMem_segregList (s : SmallHeap) (m : Mem) :
    (s.setMem m).segregList = s.segregList := rfl

@[simp] theorem SmallHeap.setMem_nextNode (s : SmallHeap) (m : Mem) :
    (s.setMem m).nextNode = s.nextNode := rfl

@[simp] theorem SmallHeap.setMem_emptyListHead (s : SmallHeap) (m : Mem) :
    (s.setMem m).emptyListHead = s.emptyListHead := rfl

/-- Every outcome of `localStep`, with the test that led to it. -/
inductive LocalStep (cfg : Config) (s : SmallHeap) (l : Local) : SmallHeap → Local → Prop where
  | fromCache {n b} (hpc : l.pc = .enter n) (hc : l.nodesCache n = some b) :
      LocalStep cfg s l s (l.goto (.examine n b (slider cfg s.mem b) true))
  | noCache {n} (hpc : l.pc = .enter n) (hc : l.nodesCache n = none) :
      LocalStep cfg s l s (l.goto (.takeSegreg n))
  | popSegreg {n b} (hpc : l.pc = .takeSegreg n) (hh : s.segregList n = some b) :
      LocalStep cfg s l
        { s with segregList := Function.update s.segregList n (s.nextNode b) }
        (l.goto (.examine n b (slider cfg s.mem b) false))
  | segregEmpty {n} (hpc : l.pc = .takeSegreg n) (hh : s.segregList n = none) :
      LocalStep cfg s l s (l.goto (.takeEmpty n))
  | popEmpty {n b} (hpc : l.pc = .takeEmpty n) (hh : s.emptyListHead = some b) :
      LocalStep cfg s l
        { s with
          emptyListHead := s.nextNode b
          nextNode := Function.update s.nextNode b none }
        (l.goto (.initHeader n b))
  | outOfBlocks {n} (hpc : l.pc = .takeEmpty n) (hh : s.emptyListHead = none) :
      LocalStep cfg s l s (l.goto (.fillList n 1))
  | init {n b} (hpc : l.pc = .initHeader n b) :
      LocalStep cfg s l (s.setMem (initHeader cfg s.mem b n)) (l.goto (.finish n b))
  | found {n b sl c} (hpc : l.pc = .examine n b sl c)
      (hroom : sl + getSizeWithAlignment n ≤ cfg.blockAddr b + blockSize)
      (hbit : getBitByAddress cfg s.mem sl = 0#8) :
      LocalStep cfg s l (s.setMem (store64 s.mem (getSliderPositionAddr (cfg.blockAddr b)) sl))
        (l.goto (.finish n b))
  | skip {n b sl c} (hpc : l.pc = .examine n b sl c)
      (hroom : sl + getSizeWithAlignment n ≤ cfg.blockAddr b + blockSize)
      (hbit : getBitByAddress cfg s.mem sl ≠ 0#8) :
      LocalStep cfg s l (s.setMem (setBitByAddress cfg s.mem sl 0#8))
        (l.goto (.examine n b (sl + getSizeWithAlignment n) c))
  | exhaustedCache {n b sl} (hpc : l.pc = .examine n b sl true)
      (hroom : ¬ sl + getSizeWithAlignment n ≤ cfg.blockAddr b + blockSize) :
      LocalStep cfg s l s ((l.setCache n none).goto (.takeSegreg n))
  | exhausted {n b sl} (hpc : l.pc = .examine n b sl false)
      (hroom : ¬ sl + getSizeWithAlignment n ≤ cfg.blockAddr b + blockSize) :
      LocalStep cfg s l s (l.goto (.takeSegreg n))
  | finish {n b} (hpc : l.pc = .finish n b) :
      LocalStep cfg s l
        (s.setMem (store64 s.mem (getSliderPositionAddr (cfg.blockAddr b))
          (slider cfg s.mem b + getSizeWithAlignment n)))
        ((l.setCache n (if slider cfg s.mem b + getSizeWithAlignment n ≥
          cfg.blockAddr b + blockSize then none else some b)).goto
          (.returned n (some (slider cfg s.mem b))))
  | nextList {n i} (hpc : l.pc = .fillList n i) (hi : i < objectSizeUpperBound)
      (hh : s.segregList i = none) : LocalStep cfg s l s (l.goto (.fillList n (i + 1)))
  | enterList {n i b} (hpc : l.pc = .fillList n i) (hi : i < objectSizeUpperBound)
      (hh : s.segregList i = some b) : LocalStep cfg s l s (l.goto (.fillNode n i b))
  | fillDone {n i} (hpc : l.pc = .fillList n i) (hi : ¬ i < objectSizeUpperBound) :
      LocalStep cfg s l s (l.goto (.returned n none))
  | fill {n i b} (hpc : l.pc = .fillNode n i b) :
      LocalStep cfg s l (s.setMem (zeroBitmap s.mem (cfg.blockAddr b)))
        (l.goto (match s.nextNode b with
          | none => .fillList n (i + 1)
          | some c => .fillNode n i c))

variable {cfg : Config} {s s' : SmallHeap} {l l' : Local}

theorem localStep_outcome (h : localStep cfg s l = some (s', l')) : LocalStep cfg s l s' l' := by
  simp only [localStep] at h
  cases hpc : l.pc <;> simp only [hpc] at h
  case idle => cases h
  case returned => cases h
  case enter n =>
    cases hc : l.nodesCache n <;> simp only [hc] at h <;> cases h
    · exact .noCache hpc hc
    · exact .fromCache hpc hc
  case takeSegreg n =>
    cases hh : s.segregList n <;> simp only [getBlockFromSegregList, hh] at h <;> cases h
    · exact .segregEmpty hpc hh
    · exact .popSegreg hpc hh
  case takeEmpty n =>
    cases hh : s.emptyListHead <;> simp only [allocateNewBlock, hh] at h <;> cases h
    · exact .outOfBlocks hpc hh
    · exact .popEmpty hpc hh
  case initHeader n b =>
    cases h
    exact .init hpc
  case examine n b sl c =>
    by_cases hroom : sl + getSizeWithAlignment n ≤ cfg.blockAddr b + blockSize
    · rw [if_pos hroom] at h
      by_cases hbit : getBitByAddress cfg s.mem sl = 0#8
      · rw [if_pos hbit] at h
        cases h
        exact .found hpc hroom hbit
      · rw [if_neg hbit] at h
        cases h
        exact .skip hpc hroom hbit
    · rw [if_neg hroom] at h
      cases c <;> cases h
      · exact .exhausted hpc hroom
      · exact .exhaustedCache hpc hroom
  case finish n b =>
    cases h
    exact .finish hpc
  case fillList n i =>
    by_cases hi : i < objectSizeUpperBound
    · rw [if_pos hi] at h
      cases hh : s.segregList i <;> simp only [hh] at h <;> cases h
      · exact .nextList hpc hi hh
      · exact .enterList hpc hi hh
    · rw [if_neg hi] at h
      cases h
      exact .fillDone hpc hi
  case fillNode n i b =>
    cases h
    exact .fill hpc

/-- A property of the heap and the caller that every step keeps holds at the return. -/
theorem localRun_invariant {P : SmallHeap → Local → Prop}
    (preserve : ∀ s l s' l', P s l → LocalStep cfg s l s' l' → P s' l') {fuel : Nat}
    {res : Option Nat} (start : P s l) (h : localRun cfg fuel s l = some (s', l', res)) :
    P s' l' ∧ ∃ n, l'.pc = .returned n res := by
  induction fuel generalizing s l with
  | zero => cases h
  | succ fuel ih =>
    cases hpc : l.pc <;> simp only [localRun, hpc] at h
    case returned n r =>
      cases h
      exact ⟨start, n, hpc⟩
    all_goals
      obtain ⟨⟨s₁, l₁⟩, hstep, hrest⟩ := Option.bind_eq_some_iff.mp h
      exact ih (preserve _ _ _ _ start (localStep_outcome hstep)) hrest

end GarbageCollector
