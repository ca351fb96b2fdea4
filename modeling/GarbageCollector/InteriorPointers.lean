import GarbageCollector.ConcurrentAlloc
import GarbageCollector.Object

/-!
# Interior pointers

An answer of the small allocator keeps its block until a sweep finds the bitmap of the block empty,
and `get_object` recovers its start from any address inside. The large half is a search among
half-open intervals that may touch.
-/

namespace GarbageCollector.InteriorPointers

open Bytes BinaryTree Transition
open ConcurrentAlloc (answer answer_cases step_outcome remark)

/-- The runs of the small allocator, with the answers whose block no sweep has emptied since. -/
structure State (n : Nat) where
  alloc : ConcurrentAlloc.State n
  answers : List (Nat × Nat)

def step (cfg : Config) {n : Nat} (s : State n) (a : ConcurrentAlloc.Action n) :
    Option (State n) :=
  (ConcurrentAlloc.step cfg s.alloc a).map fun alloc =>
    ⟨alloc, match a with
      | .step t => answer (alloc.thread t).pc ++ s.answers
      | .collect _ =>
        s.answers.filter fun x => !isBitmapEmpty alloc.sweptMem (getBlockAddr cfg x.1)
      | _ => s.answers⟩

def Start (cfg : Config) (n : Nat) (s : State n) : Prop :=
  ConcurrentAlloc.Start cfg n s.alloc ∧ s.answers = []

abbrev Reachable (cfg : Config) (n : Nat) : State n → Prop :=
  Transition.Reachable (Start cfg n) (step cfg) anyStep

/-- The answer is slot `k` of block `b`, which is neither on the empty list nor fresh from it. -/
structure Housed (cfg : Config) {n : Nat} (m : Mem) (place : Nat → Place (Fin n)) (x : Nat × Nat)
    (b k : Nat) : Prop where
  block : b < cfg.blocksCount
  size : InRange x.2
  whole : k < slotCount x.2
  header : headerSize cfg m b = x.2
  addr : x.1 = cfg.slotAddr b x.2 k
  used : (place b).inUse

structure Inv (cfg : Config) {n : Nat} (s : State n) (place : Nat → Place (Fin n)) : Prop where
  alloc : ConcurrentAlloc.Inv cfg s.alloc place
  housed : ∀ x, x ∈ s.answers → ∃ b k, Housed cfg s.alloc.heap.mem place x b k

section Answers

variable {cfg : Config} {n : Nat} {s s' : State n} {place : Nat → Place (Fin n)} {t : Fin n}
  {x : Nat × Nat} {b k : Nat} {m : Mem}

theorem Housed.end_le (hx : Housed cfg m place x b k) :
    x.1 + getSizeWithAlignment x.2 ≤ cfg.blockAddr b + blockSize := by
  rw [hx.addr, ← cfg.slotAddr_succ]
  exact (cfg.lt_slotCount_iff hx.size.1).mp hx.whole

theorem Housed.low (hx : Housed cfg m place x b k) :
    cfg.blockAddr b + blockHeaderSize ≤ x.1 := by
  rw [hx.addr, ← cfg.slotAddr_zero b x.2]
  exact cfg.slotAddr_mono (Nat.zero_le k)

theorem Housed.getBlockAddr (hx : Housed cfg m place x b k) :
    getBlockAddr cfg x.1 = cfg.blockAddr b := by
  have hlow := hx.low
  have hend := hx.end_le
  have hpos := getSizeWithAlignment_pos hx.size.1
  exact getBlockAddr_of_mem (by omega) (by omega)

/-- A step writes no header of a block in use. -/
theorem Housed.stepped {h' : SmallHeap} {l' : Local} {th : Fin n → Local} {h : SmallHeap}
    (hx : Housed cfg h.mem place x b k) (hl : LocalStep cfg h (th t) h' l')
    (howned : Owned cfg h th place) :
    Housed cfg h'.mem (placeAfter cfg t h (th t) place) x b k := by
  have hfresh : place b ≠ .fresh t := by
    intro hp
    have hused := hx.used
    rw [hp] at hused
    exact hused
  constructor
  · exact hx.block
  · exact hx.size
  · exact hx.whole
  · exact (hl.header_kept howned hfresh).trans hx.header
  · exact hx.addr
  · exact (hl.moved howned).in_use howned hx.used

/-- The slot that a call returns. -/
theorem housed_of_finish {h h' : SmallHeap} {l' : Local} {th : Fin n → Local} {size : Nat}
    (howned : Owned cfg h th place) (hpc : (th t).pc = .finish size b)
    (hl : LocalStep cfg h (th t) h' l') :
    ∃ j, Housed cfg h'.mem (placeAfter cfg t h (th t) place) (slider cfg h.mem b, size) b j := by
  obtain ⟨hn, -, hlt, hplace, j, hj, hsl, -⟩ := howned.at t hpc
  have hsize : headerSize cfg h.mem b = size := (hplace ▸ howned.header b hlt).2.1
  have hx : Housed cfg h.mem place (slider cfg h.mem b, size) b j :=
    ⟨hlt, hn, hj, hsize, hsl, by rw [hplace]; trivial⟩
  exact ⟨j, hx.stepped hl howned⟩

/-- A sweep keeps the header of a block whose bitmap is not empty, and lists the block. -/
theorem Housed.swept {h : SmallHeap} {marks : Mem} (hx : Housed cfg h.mem place x b k)
    (hkept : isBitmapEmpty (remark cfg h.mem marks) (cfg.blockAddr b) = false) :
    Housed cfg (sweepSmallHeap cfg (h.setMem (remark cfg h.mem marks))).mem
      (sweptPlace cfg (Fin n) (remark cfg h.mem marks)) x b k := by
  have hswept := sweepSmallHeap_swept cfg (h.setMem (remark cfg h.mem marks))
  constructor
  · exact hx.block
  · exact hx.size
  · exact hx.whole
  · rw [hswept.sizes b hx.block, sweptSize, SmallHeap.setMem_mem, hkept]
    exact (ConcurrentAlloc.remark_same h.mem marks).headerSize.trans hx.header
  · exact hx.addr
  · simp [sweptPlace, hkept, Place.inUse]

theorem start_inv (h : Start cfg n s) : ∃ place, Inv cfg s place := by
  obtain ⟨halloc, hnone⟩ := h
  obtain ⟨place, halloc⟩ := ConcurrentAlloc.start_inv halloc
  exact ⟨place, halloc, fun x hx => by simp [hnone] at hx⟩

theorem inv_step {a : ConcurrentAlloc.Action n} (h : ∃ place, Inv cfg s place)
    (hs : step cfg s a = some s') : ∃ place, Inv cfg s' place := by
  obtain ⟨place, h⟩ := h
  obtain ⟨alloc, hstep, rfl⟩ := Option.map_eq_some_iff.mp hs
  cases step_outcome hstep with
  | call hidle hsize => exact ⟨place, h.alloc.called hidle hsize, h.housed⟩
  | ret hpc => exact ⟨place, h.alloc.left hpc, h.housed⟩
  | @step t h' l' hl =>
    refine ⟨_, ConcurrentAlloc.step_inv h.alloc hl, fun x hx => ?_⟩
    simp only [Function.update_self, List.mem_append] at hx
    rcases hx with hnew | hold
    · rcases answer_cases hl with hnone | ⟨size, b, hpc, hone⟩
      · simp [hnone] at hnew
      · rw [hone, List.mem_singleton] at hnew
        subst hnew
        exact ⟨b, housed_of_finish h.alloc.owned hpc hl⟩
    · obtain ⟨b, k, hx⟩ := h.housed x hold
      exact ⟨b, k, hx.stepped hl h.alloc.owned⟩
  | collect hidle =>
    refine ⟨_, ConcurrentAlloc.collect_inv h.alloc _, fun x hx => ?_⟩
    obtain ⟨hold, hkept⟩ := List.mem_filter.mp hx
    obtain ⟨b, k, hx⟩ := h.housed x hold
    rw [hx.getBlockAddr, Bool.not_eq_true'] at hkept
    exact ⟨b, k, hx.swept hkept⟩

theorem reachable_inv (h : Reachable cfg n s) : ∃ place, Inv cfg s place :=
  h.invariant (fun _ hi => start_inv hi) fun _ _ _ hi _ hs => inv_step hi hs

end Answers

/-- Every address of the memory of the object at `r` is resolved to `r`. -/
structure Resolved (cfg : Config) (fuel : Nat) (h : Heap) (r size : Nat) : Prop where
  aligned : 8 ∣ r
  payload : ∃ b, b < cfg.blocksCount ∧ cfg.blockAddr b + blockHeaderSize ≤ r ∧
    r + getSizeWithAlignment size ≤ cfg.blockAddr b + blockSize
  start : ∀ k, k < getSizeWithAlignment size → getObject cfg fuel h (r + k) = some (some r)
  length : getObjectSize cfg fuel h r = some (getSizeWithAlignment size)

/-- The address lies in the block of the node. -/
def Holds (v : Nat × Header) (a : Nat) : Prop := v.2.addr ≤ a ∧ a < v.2.stop

/-- An address of the large heap is resolved to the only occupied block around it, if any. -/
structure ResolvedLarge (cfg : Config) (fuel : Nat) (h : Heap) (occupied : BlockTree) (a : Nat) :
    Prop where
  found : ∀ v, v ∈ occupied.inorder → Holds v a →
    getObject cfg fuel h a = some (some v.2.addr) ∧ ∀ w, w ∈ occupied.inorder → Holds w a → w = v
  invalid : (∀ v, v ∈ occupied.inorder → ¬ Holds v a) → getObject cfg fuel h a = some none

section Lookup

variable {cfg : Config} {n fuel a r b k : Nat} {s : State n} {place : Nat → Place (Fin n)}
  {x : Nat × Nat} {h : Heap} {m : Mem} {occupied : BlockTree}

theorem slotAddr_dvd (hpage : 8 ∣ cfg.smallStart) (b n k : Nat) : 8 ∣ cfg.slotAddr b n k := by
  have hslot : 8 ∣ k * getSizeWithAlignment n :=
    (Nat.dvd_of_mod_eq_zero (getSizeWithAlignment_mod n)).mul_left k
  have hblock : 8 ∣ blockSize * b := Dvd.dvd.mul_right (by decide) b
  have hheader : 8 ∣ blockHeaderSize := by decide
  exact Nat.dvd_add (Nat.dvd_add (Nat.dvd_add hpage hblock) hheader) hslot

/-- The modulus of an address inside slot `k` is its distance from the start of the slot. -/
theorem slot_offset {j : Nat} (hj : j < getSizeWithAlignment n) :
    (cfg.slotAddr b n k + j - cfg.blockAddr b - blockHeaderSize) % getSizeWithAlignment n = j := by
  have hoffset : cfg.slotAddr b n k + j - cfg.blockAddr b - blockHeaderSize =
      k * getSizeWithAlignment n + j := by
    simp only [Config.slotAddr]
    omega
  rw [hoffset, Nat.mul_comm, Nat.mul_add_mod, Nat.mod_eq_of_lt hj]

theorem Housed.resolved (hpage : 8 ∣ cfg.smallStart) (hx : Housed cfg m place x b k)
    (same : SameOutsideBitmaps cfg m h.mem) : Resolved cfg fuel h x.1 x.2 := by
  have hlow := hx.low
  have hend := hx.end_le
  have hpos := getSizeWithAlignment_pos hx.size.1
  have hle := getSizeWithAlignment_le hx.size.2
  have hsize : headerSize cfg h.mem b = x.2 := same.headerSize.trans hx.header
  constructor
  · rw [hx.addr]
    exact slotAddr_dvd hpage b x.2 k
  · exact ⟨b, hx.block, hlow, hend⟩
  · intro j hj
    rw [getObject_small hx.block (by omega) (by omega), hsize, if_neg (by omega), hx.addr,
      slot_offset hj, Nat.add_sub_cancel]
  · rw [getObjectSize_small hx.block (by omega) (by omega), hsize]

/-- Blocks in the order of their starts that do not overlap lie one behind the other. -/
theorem ordered_of_disjoint (hs : occupied.SearchTree nodeAddr)
    (hd : occupied.inorder.Pairwise fun v w => v.2.stop ≤ w.2.addr ∨ w.2.stop ≤ v.2.addr) :
    occupied.inorder.Pairwise fun v w => v.2.stop ≤ w.2.addr := by
  refine hs.imp₂ (fun v w hlt hap => ?_) hd
  rcases hap with hle | hle
  · exact hle
  · simp only [nodeAddr, Header.stop] at *
    omega

theorem holds_unique {v w : Nat × Header}
    (hd : occupied.inorder.Pairwise fun v w => v.2.stop ≤ w.2.addr) (hv : v ∈ occupied.inorder)
    (hw : w ∈ occupied.inorder) (hav : Holds v a) (haw : Holds w a) : w = v := by
  by_contra hne
  have hap : ∀ {v w : Nat × Header}, v.2.stop ≤ w.2.addr → Holds v a → ¬ Holds w a := by
    intro v w hle hv hw
    exact absurd (hle.trans hw.1) (Nat.not_le_of_lt hv.2)
  have hpair := List.pairwise_iff_getElem.mp hd
  obtain ⟨i, hi, rfl⟩ := List.getElem_of_mem hv
  obtain ⟨j, hj, rfl⟩ := List.getElem_of_mem hw
  rcases lt_trichotomy i j with hlt | rfl | hgt
  · exact hap (hpair i j hi hj hlt) hav haw
  · exact hne rfl
  · exact hap (hpair j i hj hi hgt) haw hav

theorem resolvedLarge (ht : Repr h.large.nodes h.large.occupiedRoot occupied)
    (hd : occupied.inorder.Pairwise fun v w => v.2.stop ≤ w.2.addr) (hf : occupied.size < fuel)
    (ha : cfg.InLarge a) : ResolvedLarge cfg fuel h occupied a := by
  constructor
  · intro v hv hav
    refine ⟨?_, fun w hw haw => holds_unique hd hv hw hav haw⟩
    rw [getObject, if_pos ha, extSearchBst_of_mem ht hf hd hv hav.1 hav.2]
    simp only [Option.map_some, ht.block_of_mem hv]
  · intro hnone
    obtain ⟨found, hfound⟩ := extSearchBst_total ht hf a
    rw [getObject, if_pos ha, hfound]
    cases found with
    | none => rfl
    | some i =>
      obtain ⟨hbelow, hlo, hhi⟩ := extSearchBst_below hfound
      obtain ⟨v, hv, rfl⟩ := List.mem_map.mp ((below_iff ht i).mp hbelow)
      rw [ht.block_of_mem hv] at hlo hhi
      exact absurd ⟨hlo, hhi⟩ (hnone v hv)

/-- Interior pointers find their object, also while marks are being set. -/
theorem interior_pointers_resolved (hpage : 8 ∣ cfg.smallStart) :
    (∀ (n : Nat) (s : State n), Reachable cfg n s → ∀ x, x ∈ s.answers →
      ∀ (fuel : Nat) (h : Heap), SameOutsideBitmaps cfg s.alloc.heap.mem h.mem →
        Resolved cfg fuel h x.1 x.2) ∧
    ∀ (h : Heap) (occupied : BlockTree), Repr h.large.nodes h.large.occupiedRoot occupied →
      occupied.SearchTree nodeAddr →
      occupied.inorder.Pairwise (fun v w => v.2.stop ≤ w.2.addr ∨ w.2.stop ≤ v.2.addr) →
      ∀ fuel a, occupied.size < fuel → cfg.InLarge a → ResolvedLarge cfg fuel h occupied a := by
  constructor
  · intro n s hr x hx fuel h same
    obtain ⟨place, hinv⟩ := reachable_inv hr
    obtain ⟨b, k, hhoused⟩ := hinv.housed x hx
    exact hhoused.resolved hpage same
  · intro h occupied ht hs hd fuel a hf ha
    exact resolvedLarge ht (ordered_of_disjoint hs hd) hf ha

end Lookup

/-- Two requests of size 8 and a sweep that finds the first object marked. -/
def keptCalls (t : Fin 1) : List (ConcurrentAlloc.Action 1) :=
  [.call t 8] ++ List.replicate 5 (.step t) ++ [.ret t, .call t 8] ++ List.replicate 3 (.step t) ++
    [.ret t, .collect fun x => if x = 4112 then 1#8 else 0#8]

/-- Two occupied blocks that touch. -/
def touching : Heap where
  small := ⟨fun _ => 0#8, fun _ => none, fun _ => none, none⟩
  large := {
    nodes := fun i =>
      if i = 0 then ⟨⟨8192, 2016, false⟩, none, some 1⟩ else ⟨⟨10208, 2080, false⟩, none, none⟩
    treenodeListHead := none
    freeRoot := none
    occupiedRoot := some 0 }

def touchingTree : BlockTree :=
  .node .nil (0, ⟨8192, 2016, false⟩) (NodeTree.leaf (1, ⟨10208, 2080, false⟩))

theorem touching_repr : Repr touching.large.nodes touching.large.occupiedRoot touchingTree :=
  ⟨rfl, rfl, rfl, repr_leaf rfl⟩

theorem touching_search : touchingTree.SearchTree nodeAddr := by
  simp [NodeTree.SearchTree, touchingTree, nodeAddr]

theorem interior_pointers_resolved_kept :
    (∃ s : State 1, s.answers = [(4184, 8), (4176, 8)] ∧ s.alloc.returned = [] ∧
      ∀ large, Resolved oneBlock 0 ⟨s.alloc.heap, large⟩ 4184 8) ∧
    ResolvedLarge oneBlock 3 touching touchingTree 10208 := by
  have hpage : 8 ∣ oneBlock.smallStart := by decide
  constructor
  · have hstart : Reachable oneBlock 1 ⟨ConcurrentAlloc.initial oneBlock 1 fun _ => 0#8, []⟩ :=
      .init ⟨⟨_, fun _ _ _ => rfl, rfl⟩, rfl⟩
    obtain ⟨s, hr, hanswers, hreturned⟩ := hstart.exists_of_run (keptCalls 0)
      (fun s => s.answers = [(4184, 8), (4176, 8)] ∧ s.alloc.returned = []) (by decide +kernel)
    refine ⟨s, hanswers, hreturned, fun large => ?_⟩
    exact (interior_pointers_resolved hpage).1 1 s hr (4184, 8) (by simp [hanswers]) 0 _
      (SameOutsideBitmaps.refl _)
  · exact (interior_pointers_resolved hpage).2 touching touchingTree
      touching_repr touching_search (by decide) 3 10208 (by decide) (by decide)

end GarbageCollector.InteriorPointers
