import GarbageCollector.SlotShield
import GarbageCollector.QuietHeap
import GarbageCollector.Transition

/-!
# Concurrent calls of the small allocator

Any number of threads run `allocate_small_object` step by step. A collection needs the
allocation write lock, so it is one step, taken when every thread is outside a call: it
clears the caches, leaves any bitmaps whatever and sweeps.
-/

namespace GarbageCollector.ConcurrentAlloc

open Bytes LinkedList Transition

variable {n : Nat}

structure State (n : Nat) where
  heap : SmallHeap
  thread : Fin n → Local
  /-- The addresses returned since the last sweep, each with the size asked for. -/
  returned : List (Nat × Nat)
  /-- The memory that the last sweep read. -/
  sweptMem : Mem

inductive Action (n : Nat) where
  | call (t : Fin n) (size : Nat)
  | step (t : Fin n)
  | ret (t : Fin n)
  | collect (marks : Mem)

variable (cfg : Config)

def initial (n : Nat) (m : Mem) : State n where
  heap := initSmallAllocator cfg m
  thread := fun _ => ⟨.idle, fun _ => none⟩
  returned := []
  sweptMem := (initSmallAllocator cfg m).mem

/-- A mark phase: every bitmap byte takes the value it has in `marks`. -/
def remark (m marks : Mem) : Mem :=
  fun x => if ∃ i, i < cfg.blocksCount ∧ InBitmap cfg i x then marks x else m x

/-- The answer of a call that has just ended. -/
def answer : Pc → List (Nat × Nat)
  | .returned size (some r) => [(r, size)]
  | _ => []

def goto (s : State n) (t : Fin n) (pc : Pc) : State n :=
  { s with thread := Function.update s.thread t ((s.thread t).goto pc) }

def step (s : State n) : Action n → Option (State n)
  | .call t size =>
    if (s.thread t).pc = .idle ∧ 1 ≤ size ∧ size ≤ maxObjectSize then
      some (goto s t (.enter size))
    else none
  | .step t =>
    (localStep cfg s.heap (s.thread t)).map fun p =>
      { s with
        heap := p.1
        thread := Function.update s.thread t p.2
        returned := answer p.2.pc ++ s.returned }
  | .ret t =>
    match (s.thread t).pc with
    | .returned _ _ => some (goto s t .idle)
    | _ => none
  | .collect marks =>
    if ∀ t, (s.thread t).pc = .idle then
      some {
        heap := sweepSmallHeap cfg (s.heap.setMem (remark cfg s.heap.mem marks))
        thread := fun t => ⟨.idle, clearCache (s.thread t).nodesCache⟩
        returned := []
        sweptMem := remark cfg s.heap.mem marks }
    else none

/-- The states after `__init_small_allocator` on a mapping that reads as zero. -/
def Start (n : Nat) (s : State n) : Prop :=
  ∃ m, ZeroedSmallHeap cfg m ∧ s = initial cfg n m

abbrev Reachable (n : Nat) : State n → Prop :=
  Transition.Reachable (Start cfg n) (step cfg) anyStep

inductive GlobalStep (s : State n) : Action n → State n → Prop where
  | call {t size} (hidle : (s.thread t).pc = .idle) (hsize : InRange size) :
      GlobalStep s (.call t size) (goto s t (.enter size))
  | step {t h' l'} (hl : LocalStep cfg s.heap (s.thread t) h' l') :
      GlobalStep s (.step t) { s with
        heap := h'
        thread := Function.update s.thread t l'
        returned := answer l'.pc ++ s.returned }
  | ret {t size res} (hpc : (s.thread t).pc = .returned size res) :
      GlobalStep s (.ret t) (goto s t .idle)
  | collect {marks} (hidle : ∀ t, (s.thread t).pc = .idle) :
      GlobalStep s (.collect marks) {
        heap := sweepSmallHeap cfg (s.heap.setMem (remark cfg s.heap.mem marks))
        thread := fun t => ⟨.idle, clearCache (s.thread t).nodesCache⟩
        returned := []
        sweptMem := remark cfg s.heap.mem marks }

theorem step_outcome {cfg : Config} {s s' : State n} {a : Action n}
    (hs : step cfg s a = some s') : GlobalStep cfg s a s' := by
  cases a with
  | call t size =>
    simp only [step, Option.ite_none_right_eq_some] at hs
    obtain ⟨⟨hidle, hsize⟩, hs⟩ := hs
    cases hs
    exact .call hidle hsize
  | step t =>
    simp only [step, Option.map_eq_some_iff] at hs
    obtain ⟨⟨h', l'⟩, hlocal, rfl⟩ := hs
    exact .step (localStep_outcome hlocal)
  | ret t =>
    simp only [step] at hs
    cases hpc : (s.thread t).pc <;> simp only [hpc] at hs <;> cases hs
    exact .ret hpc
  | collect marks =>
    simp only [step, Option.ite_none_right_eq_some] at hs
    obtain ⟨hidle, hs⟩ := hs
    cases hs
    exact .collect hidle

/-- An answer names a slot that cannot be returned again before the next sweep. -/
def Delivered (s : State n) (place : Nat → Place (Fin n)) (x : Nat × Nat) : Prop :=
  ∃ b k, x.1 = cfg.slotAddr b x.2 k ∧ Shielded cfg s.heap s.thread place False b x.2 k

/-- The ranges of two answers do not overlap. -/
def Apart (x y : Nat × Nat) : Prop :=
  x.1 + getSizeWithAlignment x.2 ≤ y.1 ∨ y.1 + getSizeWithAlignment y.2 ≤ x.1

structure Inv (s : State n) (place : Nat → Place (Fin n)) : Prop where
  owned : Owned cfg s.heap s.thread place
  delivered : ∀ x, x ∈ s.returned → Delivered cfg s place x
  apart : s.returned.Pairwise Apart

variable {cfg} {s s' : State n} {place : Nat → Place (Fin n)} {t : Fin n}

theorem apart_of_slotsApart {b m k b' m' k' : Nat} (h : SlotsApart cfg b m k b' m' k') :
    Apart (cfg.slotAddr b m k, m) (cfg.slotAddr b' m' k', m') := by
  simpa only [SlotsApart, Apart, cfg.slotAddr_succ] using h

/-- Walking through a block is the only thing a program counter protects a slot by. -/
theorem shielded_turn {marks : Prop} {b m k : Nat} {pc : Pc} (hrest : (s.thread t).pc.atRest)
    (h : Shielded cfg s.heap s.thread place marks b m k) :
    Shielded cfg s.heap (Function.update s.thread t ((s.thread t).goto pc)) place marks b m k := by
  refine ⟨h.block, h.size, h.whole, h.header, ?_⟩
  cases h.reason with
  | gone hp => exact .gone hp
  | passed hp hle => exact .passed hp hle
  | @skipped u sl c hp hpc hle =>
    have hu : u ≠ t := by
      rintro rfl
      rw [hpc] at hrest
      exact hrest
    exact .skipped hp (by rw [Function.update_of_ne hu]; exact hpc) hle
  | marked hm hp hbit => exact .marked hm hp hbit

theorem Inv.turn (h : Inv cfg s place) {pc : Pc} (hrest : (s.thread t).pc.atRest)
    (hpc : ∀ m, pc = .enter m → InRange m) (hnew : pc.atRest ∨ ∃ m, pc = .enter m) :
    Inv cfg (goto s t pc) place where
  owned := h.owned.turn hpc hnew
  delivered := by
    intro x hx
    obtain ⟨b, k, hxb, hsh⟩ := h.delivered x hx
    exact ⟨b, k, hxb, shielded_turn hrest hsh⟩
  apart := h.apart

/-- A step that ends a call took it from `finish`. -/
theorem answer_cases {h h' : SmallHeap} {l l' : Local} (hs : LocalStep cfg h l h' l') :
    answer l'.pc = [] ∨
      ∃ m c, l.pc = .finish m c ∧ answer l'.pc = [(slider cfg h.mem c, m)] := by
  cases hs with
  | @finish m c hpc => exact Or.inr ⟨m, c, hpc, rfl⟩
  | @fill m i c hpc => exact Or.inl (by cases h.nextNode c <;> rfl)
  | _ => exact Or.inl rfl

theorem step_inv {l' : Local} {h' : SmallHeap} (h : Inv cfg s place)
    (hs : LocalStep cfg s.heap (s.thread t) h' l') :
    Inv cfg { s with
      heap := h'
      thread := Function.update s.thread t l'
      returned := answer l'.pc ++ s.returned } (placeAfter cfg t s.heap (s.thread t) place) := by
  have hold : ∀ x, x ∈ s.returned → ∃ b k, x.1 = cfg.slotAddr b x.2 k ∧
      Shielded cfg h' (Function.update s.thread t l')
        (placeAfter cfg t s.heap (s.thread t) place) False b x.2 k := by
    intro x hx
    obtain ⟨b, k, hxb, hsh⟩ := h.delivered x hx
    exact ⟨b, k, hxb, hs.shielded h.owned hsh False.elim⟩
  refine ⟨hs.owned h.owned, ?_, ?_⟩
  · intro x hx
    rcases List.mem_append.mp hx with hnew | hx
    · rcases answer_cases hs with hnone | ⟨m, c, hpc, hone⟩
      · simp [hnone] at hnew
      · rw [hone, List.mem_singleton] at hnew
        subst hnew
        obtain ⟨j, -, -, -, hsl⟩ := h.owned.finish_slot hpc
        exact ⟨c, j, hsl, h.owned.finish_shielded hpc hs hsl⟩
    · exact hold x hx
  · rcases answer_cases hs with hnone | ⟨m, c, hpc, hone⟩
    · simpa [hnone] using h.apart
    · simp only [hone, List.singleton_append, List.pairwise_cons]
      refine ⟨fun y hy => ?_, h.apart⟩
      obtain ⟨j, -, -, -, hsl⟩ := h.owned.finish_slot hpc
      obtain ⟨b, k, hyb, hsh⟩ := h.delivered y hy
      have hap := apart_of_slotsApart (h.owned.finish_apart hpc hsl hsh)
      rwa [← hsl, ← hyb] at hap

theorem remark_same (m marks : Mem) : SameOutsideBitmaps cfg m (remark cfg m marks) := by
  intro x hx
  rw [remark, if_neg]
  rintro ⟨i, hi, hin⟩
  exact hx i hi hin

theorem clearCache_none {cache : NodesCache}
    (h : ∀ m b, cache m = some b → m < objectSizeUpperBound) (m : Nat) :
    clearCache cache m = none := by
  rw [clearCache]
  split
  · rfl
  · rename_i hm
    cases hc : cache m with
    | none => rfl
    | some b => exact absurd (h m b hc) hm

theorem collect_inv (h : Inv cfg s place) (marks : Mem) :
    Inv cfg {
      heap := sweepSmallHeap cfg (s.heap.setMem (remark cfg s.heap.mem marks))
      thread := fun u => ⟨.idle, clearCache (s.thread u).nodesCache⟩
      returned := []
      sweptMem := remark cfg s.heap.mem marks }
      (sweptPlace cfg (Fin n) (remark cfg s.heap.mem marks)) where
  owned := by
    refine swept_owned _ (fun _ => rfl) (fun u => ?_) fun b hb _ => ?_
    · exact clearCache_none fun m b hc => (h.owned.cached u m b hc).1.lt
    · rw [SmallHeap.setMem_mem, (remark_same _ _).headerSize]
      exact h.owned.sizes b hb
  delivered := fun _ hx => nomatch hx
  apart := List.Pairwise.nil

theorem start_inv (h : Start cfg n s) : ∃ place, Inv cfg s place := by
  obtain ⟨m, hm, rfl⟩ := h
  exact ⟨_, init_owned hm (fun _ => rfl) (fun _ _ => rfl), (fun _ hx => nomatch hx),
    List.Pairwise.nil⟩

theorem Inv.called {size : Nat} (h : Inv cfg s place) (hidle : (s.thread t).pc = .idle)
    (hsize : InRange size) : Inv cfg (goto s t (.enter size)) place := by
  refine h.turn (by rw [hidle]; trivial) ?_ (Or.inr ⟨size, rfl⟩)
  rintro m hm
  cases hm
  exact hsize

theorem Inv.left {size : Nat} {res : Option Nat} (h : Inv cfg s place)
    (hpc : (s.thread t).pc = .returned size res) : Inv cfg (goto s t .idle) place :=
  h.turn (by rw [hpc]; trivial) (fun _ he => nomatch he) (Or.inl trivial)

theorem inv_step {a : Action n} (h : ∃ place, Inv cfg s place) (hs : step cfg s a = some s') :
    ∃ place, Inv cfg s' place := by
  obtain ⟨place, h⟩ := h
  cases step_outcome hs with
  | call hidle hsize => exact ⟨place, h.called hidle hsize⟩
  | step hl => exact ⟨_, step_inv h hl⟩
  | ret hpc => exact ⟨place, h.left hpc⟩
  | collect hidle => exact ⟨_, collect_inv h _⟩

theorem reachable_inv (h : Reachable cfg n s) : ∃ place, Inv cfg s place :=
  h.invariant (fun _ hi => start_inv hi) fun _ _ _ hi _ hs => inv_step hi hs

/-- The three kinds of places from which a thread can get a block. -/
inductive Position (n : Nat) where
  | emptyList
  | segregList (size : Nat)
  | cache (t : Fin n) (size : Nat)

/-- Block `b` is met on the list, or is the entry of the cache. -/
def At (s : State n) (b : Nat) : Position n → Prop
  | .emptyList => OnList s.heap.nextNode s.heap.emptyListHead b
  | .segregList size =>
    size < objectSizeUpperBound ∧ OnList s.heap.nextNode (s.heap.segregList size) b
  | .cache t size => (s.thread t).nodesCache size = some b

/-- The size that a block on a list or in a cache must have in its header. -/
def Position.size? : Position n → Option Nat
  | .emptyList => none
  | .segregList size => some size
  | .cache _ size => some size

def Position.home : Position n → Place (Fin n)
  | .emptyList => .empty
  | .segregList size => .segreg size
  | .cache t size => .owned t size

theorem Position.home_inj {p q : Position n} (h : p.home = q.home) : p = q := by
  cases p <;> cases q <;> simp_all [Position.home]

theorem Inv.at_place (h : Inv cfg s place) {b : Nat} {p : Position n} (hat : At s b p) :
    b < cfg.blocksCount ∧ place b = p.home := by
  cases p with
  | emptyList => exact h.owned.empty.onList_iff.mp hat
  | segregList size => exact (h.owned.segreg size hat.1).onList_iff.mp hat.2
  | cache t size => exact (h.owned.cached t size b hat).2

/-- A block sits in one list or cache at most, with the size of that list or cache in its
header, and the answers since the last sweep do not overlap. -/
theorem blocks_and_answers_apart (h : Reachable cfg n s) :
    (∀ b p q, At s b p → At s b q → p = q) ∧
    (∀ b p size, At s b p → p.size? = some size → headerSize cfg s.heap.mem b = size) ∧
    s.returned.Pairwise Apart := by
  obtain ⟨place, h⟩ := reachable_inv h
  refine ⟨fun b p q hp hq => ?_, fun b p size hp hsize => ?_, h.apart⟩
  · exact Position.home_inj ((h.at_place hp).2.symm.trans (h.at_place hq).2)
  · obtain ⟨hlt, hplace⟩ := h.at_place hp
    have hheader := h.owned.header b hlt
    rw [hplace] at hheader
    cases p with
    | emptyList => cases hsize
    | segregList m => exact hheader.1.trans (Option.some.inj hsize)
    | cache u m => exact hheader.2.1.trans (Option.some.inj hsize)

/-- Two threads call at the same time and take their steps in turn; then thread `i` calls again. -/
def callsInTurn (i j : Fin 2) : List (Action 2) :=
  [.call i 8, .call j 8] ++ (List.replicate 5 [Action.step i, .step j]).flatten ++
    [.ret i, .call i 8, .step i, .ret j, .step i, .step i]

theorem blocks_and_answers_apart_in_turn :
    ∃ s : State 2, s.returned = [(4184, 8), (8272, 8), (4176, 8)] ∧ s.returned.Pairwise Apart := by
  have hstart : Reachable twoBlocks 2 (initial twoBlocks 2 fun _ => 0#8) :=
    .init ⟨_, fun _ _ _ => rfl, rfl⟩
  obtain ⟨s, hr, hreturned⟩ := hstart.exists_of_run (callsInTurn 0 1)
    (fun s => s.returned = [(4184, 8), (8272, 8), (4176, 8)]) (by decide +kernel)
  exact ⟨s, hreturned, (blocks_and_answers_apart hr).2.2⟩

section Marks

variable (cfg)

/-- The states right after a sweep with empty caches; a block that carries marks has a size. -/
def AfterSweep (n : Nat) (s : State n) : Prop :=
  ∃ h : SmallHeap,
    (∀ b, b < cfg.blocksCount → isBitmapEmpty h.mem (cfg.blockAddr b) = false →
      InRange (headerSize cfg h.mem b)) ∧
    s = ⟨sweepSmallHeap cfg h, fun _ => ⟨.idle, fun _ => none⟩, [], h.mem⟩

/-- Up to the next collection. -/
def NoCollect (_ : State n) : Action n → Prop
  | .collect _ => False
  | _ => True

/-- Up to the next collection, and no bitmap is zeroed that has a mark bit of a whole slot
at or behind the slider. -/
def SparesMarks (s : State n) : Action n → Prop
  | .collect _ => False
  | .step t =>
    match (s.thread t).pc with
    | .fillNode _ _ b => ∀ k, k < slotCount (headerSize cfg s.heap.mem b) →
        slider cfg s.heap.mem b ≤ cfg.slotAddr b (headerSize cfg s.heap.mem b) k →
        markBit cfg s.heap.mem b k = false
    | _ => True
  | _ => True

instance (s : State n) (a : Action n) : Decidable (NoCollect s a) := by
  cases a <;> simp only [NoCollect] <;> infer_instance

instance (s : State n) (a : Action n) : Decidable (SparesMarks cfg s a) := by
  cases a <;> simp only [SparesMarks]
  case step t => split <;> infer_instance
  all_goals infer_instance

/-- The marked slots of the last collection are protected, and no answer is one of them. -/
structure MarkInv (s : State n) (place : Nat → Place (Fin n)) : Prop where
  owned : Owned cfg s.heap s.thread place
  origin : ∀ b, b < cfg.blocksCount → isBitmapEmpty s.sweptMem (cfg.blockAddr b) = false →
    headerSize cfg s.heap.mem b = headerSize cfg s.sweptMem b ∧ (place b).inUse
  kept : ∀ b k, b < cfg.blocksCount → k < slotCount (headerSize cfg s.sweptMem b) →
    markBit cfg s.sweptMem b k = true →
    Shielded cfg s.heap s.thread place True b (headerSize cfg s.sweptMem b) k
  unmarked : ∀ x, x ∈ s.returned → getBitByAddress cfg s.sweptMem x.1 = 0#8

end Marks

theorem not_empty_of_bit {m : Mem} {b j : Nat} (hj : j < 8 * bitmapBytesCount)
    (hbit : markBit cfg m b j = true) : isBitmapEmpty m (cfg.blockAddr b) = false := by
  rw [← Bool.not_eq_true, isBitmapEmpty_iff]
  intro hall
  rw [hall j hj] at hbit
  cases hbit

theorem swept_markInv (h : SmallHeap)
    (hsizes : ∀ b, b < cfg.blocksCount → isBitmapEmpty h.mem (cfg.blockAddr b) = false →
      InRange (headerSize cfg h.mem b)) :
    MarkInv cfg ⟨sweepSmallHeap cfg h, fun _ => ⟨.idle, fun _ => none⟩, [], h.mem⟩
      (sweptPlace cfg (Fin n) h.mem) := by
  have hswept := sweepSmallHeap_swept cfg h
  refine ⟨?_, ?_, ?_, fun _ hx => nomatch hx⟩
  · exact swept_owned h (fun _ => rfl) (fun _ _ => rfl) fun b hb he => (hsizes b hb he).2
  · intro b hb he
    refine ⟨?_, ?_⟩
    · simp [hswept.sizes b hb, sweptSize, he]
    · simp [sweptPlace, he, Place.inUse]
  · intro b k hb hk hbit
    have hj : k < 8 * bitmapBytesCount := hk.trans (slotCount_lt (one_le_of_lt_slotCount hk))
    have he := not_empty_of_bit hj hbit
    refine ⟨hb, hsizes b hb he, hk, ?_, .marked trivial (Or.inl ?_) ?_⟩
    · simp [hswept.sizes b hb, sweptSize, he]
    · exact sweptPlace_segreg.mpr ⟨he, rfl⟩
    · rw [hswept.markBit hj]
      exact hbit

theorem afterSweep_markInv (h : AfterSweep cfg n s) : ∃ place, MarkInv cfg s place := by
  obtain ⟨h, hsizes, rfl⟩ := h
  exact ⟨_, swept_markInv h hsizes⟩

theorem MarkInv.turn (h : MarkInv cfg s place) {pc : Pc} (hrest : (s.thread t).pc.atRest)
    (hpc : ∀ m, pc = .enter m → InRange m) (hnew : pc.atRest ∨ ∃ m, pc = .enter m) :
    MarkInv cfg (goto s t pc) place where
  owned := h.owned.turn hpc hnew
  origin := h.origin
  kept := fun b k hb hk hbit => shielded_turn hrest (h.kept b k hb hk hbit)
  unmarked := h.unmarked

/-- The slot about to be returned was not marked: otherwise it would be protected. -/
theorem MarkInv.finish_unmarked (h : MarkInv cfg s place) {m c : Nat}
    (hpc : (s.thread t).pc = .finish m c) :
    getBitByAddress cfg s.sweptMem (slider cfg s.heap.mem c) = 0#8 := by
  obtain ⟨hm, -, hlt, hplace, j, hj, hsl, -⟩ := h.owned.at t hpc
  have hsize : headerSize cfg s.heap.mem c = m := (hplace ▸ h.owned.header c hlt).2.1
  have hend := (cfg.lt_slotCount_iff (i := c) hm.1).mp hj
  obtain ⟨hlo, hhi⟩ := slotAddr_in_block hm (cfg.slotAddr_succ c m j ▸ hend)
  rw [hsl, getBitByAddress_eq_zero hlo hhi]
  refine Bool.eq_false_of_not_eq_true fun hbit => ?_
  obtain ⟨hsame, -⟩ := h.origin c hlt (not_empty_of_bit (objectIndex_lt hlo hhi) hbit)
  have hold : headerSize cfg s.sweptMem c = m := hsame.symm.trans hsize
  rw [objectIndex_slotAddr hm.1 hold hhi] at hbit
  have hsh := h.kept c j hlt (hold.symm ▸ hj) hbit
  rw [hold] at hsh
  have hpos := getSizeWithAlignment_pos hm.1
  have hap := h.owned.finish_apart hpc hsl hsh
  simp only [SlotsApart, cfg.slotAddr_succ] at hap
  omega

theorem step_markInv {l' : Local} {h' : SmallHeap} (h : MarkInv cfg s place)
    (hs : LocalStep cfg s.heap (s.thread t) h' l')
    (spares : SparesMarks cfg s (.step t)) :
    MarkInv cfg { s with
      heap := h'
      thread := Function.update s.thread t l'
      returned := answer l'.pc ++ s.returned } (placeAfter cfg t s.heap (s.thread t) place) where
  owned := hs.owned h.owned
  origin := by
    intro b hb he
    obtain ⟨hsame, huse⟩ := h.origin b hb he
    refine ⟨(hs.header_kept h.owned fun hfresh => ?_).trans hsame,
      (hs.moved h.owned).in_use h.owned huse⟩
    rw [hfresh] at huse
    exact huse
  kept := by
    intro b k hb hk hbit
    have hsh := h.kept b k hb hk hbit
    refine hs.shielded h.owned hsh fun _ m i hpc => ?_
    simp only [SparesMarks, hpc, hsh.header] at spares
    have := spares k hsh.whole
    by_cases hlt : cfg.slotAddr b (headerSize cfg s.sweptMem b) k < slider cfg s.heap.mem b
    · exact Or.inl hlt
    · exact Or.inr (this (by omega))
  unmarked := by
    intro x hx
    rcases List.mem_append.mp hx with hnew | hx
    · rcases answer_cases hs with hnone | ⟨m, c, hpc, hone⟩
      · simp [hnone] at hnew
      · rw [hone, List.mem_singleton] at hnew
        rw [hnew]
        exact h.finish_unmarked hpc
    · exact h.unmarked x hx

theorem markInv_step {a : Action n} (h : ∃ place, MarkInv cfg s place)
    (hok : SparesMarks cfg s a) (hs : step cfg s a = some s') : ∃ place, MarkInv cfg s' place := by
  obtain ⟨place, h⟩ := h
  cases step_outcome hs with
  | call hidle hsize =>
    refine ⟨place, h.turn (by rw [hidle]; trivial) ?_ (Or.inr ⟨_, rfl⟩)⟩
    rintro m hm
    cases hm
    exact hsize
  | step hl => exact ⟨_, step_markInv h hl hok⟩
  | ret hpc =>
    exact ⟨place, h.turn (by rw [hpc]; trivial) (fun _ he => nomatch he) (Or.inl trivial)⟩
  | collect hidle => exact hok.elim

/-- No answer before the next collection is a slot that the last mark phase had marked. -/
theorem answers_unmarked
    (h : Transition.Reachable (AfterSweep cfg n) (step cfg) (SparesMarks cfg) s) :
    ∀ x, x ∈ s.returned → getBitByAddress cfg s.sweptMem x.1 = 0#8 := by
  obtain ⟨place, hinv⟩ : ∃ place, MarkInv cfg s place :=
    h.invariant (fun _ hi => afterSweep_markInv hi) fun _ _ _ hi hok hs => markInv_step hi hok hs
  exact hinv.unmarked

/-- One block of size 8 whose first slot is marked. -/
def oneMark : SmallHeap where
  mem := Function.update (Function.update (fun _ => 0#8) 4104 8#8) 4112 1#8
  segregList := fun _ => none
  nextNode := fun _ => none
  emptyListHead := none

def afterOneMark (n : Nat) : State n :=
  ⟨sweepSmallHeap oneBlock oneMark, fun _ => ⟨.idle, fun _ => none⟩, [], oneMark.mem⟩

theorem afterOneMark_afterSweep (n : Nat) : AfterSweep oneBlock n (afterOneMark n) := by
  have hsize : InRange (headerSize oneBlock oneMark.mem 0) := by decide +kernel
  refine ⟨oneMark, fun b hb _ => ?_, rfl⟩
  have hb0 : b = 0 := by
    simp only [oneBlock, Config.blocksCount, blockSize] at hb
    omega
  rw [hb0]
  exact hsize

/-- Thread 0 takes the block and skips the marked slot; thread 1 finds no block in the meantime and
zeroes the bitmaps of the lists, from which the block is gone. -/
theorem answers_unmarked_two_threads :
    ∃ s : State 2, s.returned = [(4184, 8)] ∧ (s.thread 1).pc = .fillList 16 9 ∧
      getBitByAddress oneBlock s.sweptMem 4184 = 0#8 := by
  have hstart : Transition.Reachable (AfterSweep oneBlock 2) (step oneBlock) (SparesMarks oneBlock)
      (afterOneMark 2) := .init (afterOneMark_afterSweep 2)
  obtain ⟨s, hr, hreturned, hfilling⟩ := hstart.exists_of_run
    ([.call 0 8, .call 1 16, .step 0, .step 1, .step 0, .step 1, .step 1] ++
      List.replicate 8 (.step 1) ++ List.replicate 3 (.step 0))
    (fun s => s.returned = [(4184, 8)] ∧ (s.thread 1).pc = .fillList 16 9) (by decide +kernel)
  exact ⟨s, hreturned, hfilling, answers_unmarked hr (4184, 8) (by rw [hreturned]; simp)⟩

/-- Thread 0 asks for size 16, finds no block and zeroes the bitmap of the block listed for
size 8; thread 1 is then given the marked slot. -/
theorem marked_slot_returned :
    ¬ ∀ (cfg : Config) (n : Nat) (s : State n),
      Transition.Reachable (AfterSweep cfg n) (step cfg) NoCollect s →
        ∀ x, x ∈ s.returned → getBitByAddress cfg s.sweptMem x.1 = 0#8 := by
  intro h
  have hstart : Transition.Reachable (AfterSweep oneBlock 2) (step oneBlock) NoCollect
      (afterOneMark 2) := .init (afterOneMark_afterSweep 2)
  obtain ⟨s, hr, hreturned⟩ := hstart.exists_of_run
    (.call 0 16 :: List.replicate 13 (.step 0) ++ .call 1 8 :: List.replicate 4 (.step 1))
    (fun s => s.returned = [(4176, 8)] ∧ getBitByAddress oneBlock s.sweptMem 4176 ≠ 0#8)
    (by decide +kernel)
  exact hreturned.2 (h oneBlock 2 s hr (4176, 8) (by rw [hreturned.1]; simp))

end GarbageCollector.ConcurrentAlloc
