import GarbageCollector.SmallAllocator
import GarbageCollector.TreePointers

/-!
# Objects

`object.c`: the object an address lies in, its size and its mark, which is a bit of a bitmap
in the small heap and a flag of a tree node in the large one. No result means that an
assertion fails or that a search of the occupied tree runs out of `fuel`.
-/

namespace GarbageCollector

open Bytes

/-- Both heaps; `small.mem` is the whole memory. -/
structure Heap where
  small : SmallHeap
  large : LargeAllocator

def Heap.mem (h : Heap) : Mem := h.small.mem

def Heap.setMem (h : Heap) (m : Mem) : Heap := { h with small := { h.small with mem := m } }

def Heap.setNodes (h : Heap) (nodes : Nodes) : Heap :=
  { h with large := { h.large with nodes := nodes } }

namespace Config

variable (cfg : Config)

def InSmall (a : Nat) : Prop := cfg.smallStart ≤ a ∧ a < cfg.smallEnd

def InLarge (a : Nat) : Prop := cfg.largeStart ≤ a ∧ a < cfg.largeEnd

instance (a : Nat) : Decidable (cfg.InSmall a) := inferInstanceAs (Decidable (_ ∧ _))

instance (a : Nat) : Decidable (cfg.InLarge a) := inferInstanceAs (Decidable (_ ∧ _))

theorem not_inLarge_of_inSmall {a : Nat} (h : cfg.InSmall a) : ¬ cfg.InLarge a := by
  have hd := cfg.heaps_disjoint
  simp only [InSmall, InLarge, smallEnd, largeEnd] at *
  omega

end Config

section Functions

variable (cfg : Config) (fuel : Nat) (h : Heap)

def getObjectSize (object : Nat) : Option Nat :=
  if cfg.InSmall object then
    some (getSizeWithAlignment (load64 h.mem (getObjectSizeAddr (getBlockAddr cfg object))))
  else if cfg.InLarge object then
    (searchBst fuel h.large.nodes h.large.occupiedRoot object).bind fun
      | some node => some (h.large.nodes node).block.size
      | none => none
  else none

/-- `some none` is `INVALID_ADDRESS`. -/
def getObject (objectAddr : Nat) : Option (Option Nat) :=
  if cfg.InLarge objectAddr then
    (extSearchBst fuel h.large.nodes h.large.occupiedRoot objectAddr).map fun
      | some node => some (h.large.nodes node).block.addr
      | none => none
  else if cfg.InSmall objectAddr then
    let objectAddrInBlock := objectAddr - getBlockAddr cfg objectAddr
    if objectAddrInBlock < blockHeaderSize then some none
    else
      (getObjectSize cfg fuel h objectAddr).map fun objectSize =>
        if objectSize = 0 ∨ maxObjectSize < objectSize then none
        else
          some (objectAddr -
            (objectAddrInBlock - blockHeaderSize) % getSizeWithAlignment objectSize)
  else some none

def setMarked (nodes : Nodes) (node : Nat) : Nodes :=
  setBlock nodes node { (nodes node).block with isMarked := true }

def markObject (object : Nat) : Option Heap :=
  if cfg.InLarge object then
    (searchBst fuel h.large.nodes h.large.occupiedRoot object).map fun
      | some node => h.setNodes (setMarked h.large.nodes node)
      | none => h
  else if cfg.InSmall object then
    some (h.setMem (setBitByAddress cfg h.mem object 1#8))
  else none

def isMarked (object : Nat) : Option Bool :=
  if cfg.InLarge object then
    (searchBst fuel h.large.nodes h.large.occupiedRoot object).bind fun
      | some node => some (h.large.nodes node).block.isMarked
      | none => none
  else if cfg.InSmall object then
    some (getBitByAddress cfg h.mem object != 0#8)
  else none

end Functions

/-- The nodes differ in their flags only. -/
def SameButFlags (nodes nodes' : Nodes) : Prop :=
  ∀ i, (nodes' i).block.addr = (nodes i).block.addr ∧
    (nodes' i).block.size = (nodes i).block.size ∧ (nodes' i).left = (nodes i).left ∧
      (nodes' i).right = (nodes i).right

/-- The heaps differ in mark bits and flags only. -/
structure SameButMarks (cfg : Config) (h h' : Heap) : Prop where
  mem : SameOutsideBitmaps cfg h.mem h'.mem
  segregList : h'.small.segregList = h.small.segregList
  nextNode : h'.small.nextNode = h.small.nextNode
  emptyListHead : h'.small.emptyListHead = h.small.emptyListHead
  nodes : SameButFlags h.large.nodes h'.large.nodes
  treenodeListHead : h'.large.treenodeListHead = h.large.treenodeListHead
  freeRoot : h'.large.freeRoot = h.large.freeRoot
  occupiedRoot : h'.large.occupiedRoot = h.large.occupiedRoot

section Same

variable {cfg : Config} {fuel : Nat} {h h' h'' : Heap} {nodes nodes' nodes'' : Nodes}
  {p : Option Nat} {a o w i b n k : Nat}

theorem SameButFlags.refl : SameButFlags nodes nodes := fun _ => ⟨rfl, rfl, rfl, rfl⟩

theorem SameButFlags.trans (hs : SameButFlags nodes nodes') (hs' : SameButFlags nodes' nodes'') :
    SameButFlags nodes nodes'' := by
  intro i
  obtain ⟨h₁, h₂, h₃, h₄⟩ := hs i
  obtain ⟨h₁', h₂', h₃', h₄'⟩ := hs' i
  exact ⟨h₁'.trans h₁, h₂'.trans h₂, h₃'.trans h₃, h₄'.trans h₄⟩

theorem SameButMarks.refl : SameButMarks cfg h h :=
  ⟨SameOutsideBitmaps.refl _, rfl, rfl, rfl, SameButFlags.refl, rfl, rfl, rfl⟩

theorem SameButMarks.trans (hs : SameButMarks cfg h h') (hs' : SameButMarks cfg h' h'') :
    SameButMarks cfg h h'' where
  mem := hs.mem.trans hs'.mem
  segregList := hs'.segregList.trans hs.segregList
  nextNode := hs'.nextNode.trans hs.nextNode
  emptyListHead := hs'.emptyListHead.trans hs.emptyListHead
  nodes := hs.nodes.trans hs'.nodes
  treenodeListHead := hs'.treenodeListHead.trans hs.treenodeListHead
  freeRoot := hs'.freeRoot.trans hs.freeRoot
  occupiedRoot := hs'.occupiedRoot.trans hs.occupiedRoot

theorem SameButFlags.searchBst (hs : SameButFlags nodes nodes') :
    searchBst fuel nodes' p a = searchBst fuel nodes p a := by
  induction fuel generalizing p with
  | zero => rfl
  | succ fuel ih =>
    cases p with
    | none => rfl
    | some root =>
      obtain ⟨haddr, -, hl, hr⟩ := hs root
      simp only [GarbageCollector.searchBst, haddr, hl, hr, ih]

theorem SameButFlags.extSearchBst (hs : SameButFlags nodes nodes') :
    extSearchBst fuel nodes' p a = extSearchBst fuel nodes p a := by
  induction fuel generalizing p with
  | zero => rfl
  | succ fuel ih =>
    cases p with
    | none => rfl
    | some root =>
      obtain ⟨haddr, hsize, hl, hr⟩ := hs root
      simp only [GarbageCollector.extSearchBst, haddr, hsize, hl, hr, ih]

/-- An address of the small heap, its block and its place in it. -/
theorem getObjectSize_small (hb : b < cfg.blocksCount) (hlo : cfg.blockAddr b ≤ a)
    (hhi : a < cfg.blockAddr b + blockSize) :
    getObjectSize cfg fuel h a = some (getSizeWithAlignment (headerSize cfg h.mem b)) := by
  have hin : cfg.InSmall a := by
    have hend := cfg.blockAddr_end_le hb
    constructor
    · simp only [Config.blockAddr] at hlo
      omega
    · omega
  rw [getObjectSize, if_pos hin, getBlockAddr_of_mem hlo hhi]
  rfl

theorem SameButMarks.headerSize (hs : SameButMarks cfg h h') (b : Nat) :
    headerSize cfg h'.mem b = headerSize cfg h.mem b :=
  hs.mem.headerSize

theorem SameButMarks.getObjectSize (hs : SameButMarks cfg h h') :
    getObjectSize cfg fuel h' o = getObjectSize cfg fuel h o := by
  by_cases hin : cfg.InSmall o
  · obtain ⟨b, hb, hlo, hhi⟩ := exists_block hin.1 hin.2
    rw [getObjectSize_small hb hlo hhi, getObjectSize_small hb hlo hhi, hs.headerSize]
  · simp only [GarbageCollector.getObjectSize, if_neg hin, hs.occupiedRoot, hs.nodes.searchBst]
    split
    · congr 1
      funext x
      cases x with
      | none => rfl
      | some node => simp only [(hs.nodes node).2.1]
    · rfl

theorem SameButMarks.getObject (hs : SameButMarks cfg h h') :
    getObject cfg fuel h' a = getObject cfg fuel h a := by
  simp only [GarbageCollector.getObject, hs.getObjectSize, hs.occupiedRoot, hs.nodes.extSearchBst]
  split
  · congr 1
    funext x
    cases x with
    | none => rfl
    | some node => simp only [(hs.nodes node).1]
  · rfl

end Same

/-- The occupied blocks lie in the large heap. -/
def OccupiedInside (cfg : Config) (h : Heap) : Prop :=
  ∀ i, Below h.large.nodes h.large.occupiedRoot i → (h.large.nodes i).block.size = 0 ∨
    cfg.largeStart ≤ (h.large.nodes i).block.addr ∧ (h.large.nodes i).block.stop ≤ cfg.largeEnd

/-- Slot `k` of block `b` starts at `o`; the slot need not be whole. -/
structure SlotStart (cfg : Config) (h : Heap) (b k o : Nat) : Prop where
  block : b < cfg.blocksCount
  size : 1 ≤ headerSize cfg h.mem b ∧ headerSize cfg h.mem b ≤ maxObjectSize
  addr : o = cfg.slotAddr b (headerSize cfg h.mem b) k
  inBlock : o < cfg.blockAddr b + blockSize

/-- An address that `get_object` returns: in the small heap it starts a slot. -/
def IsStart (cfg : Config) (h : Heap) (o : Nat) : Prop :=
  cfg.InLarge o ∨ ∃ b k, SlotStart cfg h b k o

section Marks

variable {cfg : Config} {fuel : Nat} {h h' : Heap} {nodes : Nodes} {p : Option Nat}
  {a o w i j b b' k k' : Nat} {m : Bool}

theorem searchBst_below (hs : searchBst fuel nodes p a = some (some i)) :
    Below nodes p i ∧ (nodes i).block.addr = a := by
  induction fuel generalizing p with
  | zero => cases hs
  | succ fuel ih =>
    cases p with
    | none => cases hs
    | some root =>
      rw [searchBst] at hs
      split at hs
      · rename_i heq
        cases hs
        exact ⟨.here _, heq.symm⟩
      · split at hs
        · exact ⟨.left (ih hs).1, (ih hs).2⟩
        · exact ⟨.right (ih hs).1, (ih hs).2⟩

theorem extSearchBst_below (hs : extSearchBst fuel nodes p a = some (some i)) :
    Below nodes p i ∧ (nodes i).block.addr ≤ a ∧ a < (nodes i).block.stop := by
  induction fuel generalizing p with
  | zero => cases hs
  | succ fuel ih =>
    cases p with
    | none => cases hs
    | some root =>
      simp only [extSearchBst] at hs
      split at hs
      · rename_i hin
        cases hs
        exact ⟨.here _, hin⟩
      · split at hs
        · exact ⟨.left (ih hs).1, (ih hs).2⟩
        · exact ⟨.right (ih hs).1, (ih hs).2⟩

/-- Enough fuel for the search of a tree. -/
theorem extSearchBst_total {t : BlockTree} (h : Repr nodes p t) (hf : t.size < fuel) (a : Nat) :
    ∃ found, extSearchBst fuel nodes p a = some found := by
  induction t generalizing p fuel with
  | nil =>
    cases h
    cases fuel with
    | zero => exact absurd hf (Nat.not_lt_zero _)
    | succ fuel => exact ⟨none, rfl⟩
  | node l v r ihl ihr =>
    obtain ⟨rfl, hb, hl, hr⟩ := h
    cases fuel with
    | zero => exact absurd hf (Nat.not_lt_zero _)
    | succ fuel =>
      simp only [BinaryTree.NodeTree.size] at hf
      simp only [extSearchBst]
      split
      · exact ⟨_, rfl⟩
      · split
        · exact ihl hl (by omega)
        · exact ihr hr (by omega)

/-- The block that holds the address is found. -/
theorem extSearchBst_of_mem {t : BlockTree} {v : Nat × Header} (h : Repr nodes p t)
    (hf : t.size < fuel) (hd : t.inorder.Pairwise fun v w => v.2.stop ≤ w.2.addr)
    (hv : v ∈ t.inorder) (hlo : v.2.addr ≤ a) (hhi : a < v.2.stop) :
    extSearchBst fuel nodes p a = some (some v.1) := by
  induction t generalizing p fuel with
  | nil => cases hv
  | node l w r ihl ihr =>
    obtain ⟨rfl, hb, hl, hr⟩ := h
    cases fuel with
    | zero => exact absurd hf (Nat.not_lt_zero _)
    | succ fuel =>
      simp only [BinaryTree.NodeTree.size] at hf
      rw [BinaryTree.NodeTree.inorder_node] at hd hv
      obtain ⟨hdl, hdw, hlw⟩ := List.pairwise_append.mp hd
      obtain ⟨hwr, hdr⟩ := List.pairwise_cons.mp hdw
      simp only [extSearchBst, hb]
      rcases List.mem_append.mp hv with hv | hv
      · have hvw := hlw v hv w List.mem_cons_self
        rw [if_neg (by omega), if_pos (by omega)]
        exact ihl hl (by omega) hdl hv
      · rcases List.mem_cons.mp hv with rfl | hv
        · rw [if_pos ⟨hlo, hhi⟩]
        · have hvw := hwr v hv
          simp only [Header.stop] at hvw
          rw [if_neg (by omega), if_neg (by omega)]
          exact ihr hr (by omega) hdr hv

theorem SlotStart.low (hs : SlotStart cfg h b k o) : cfg.blockAddr b + blockHeaderSize ≤ o := by
  rw [hs.addr, ← Config.slotAddr_zero cfg b (headerSize cfg h.mem b)]
  exact cfg.slotAddr_mono (Nat.zero_le k)

theorem SlotStart.inSmall (hs : SlotStart cfg h b k o) : cfg.InSmall o := by
  have hlow := hs.low
  have hin := hs.inBlock
  have hend := cfg.blockAddr_end_le hs.block
  constructor
  · simp only [Config.blockAddr] at hlow
    omega
  · omega

theorem SlotStart.blockAddr_le (hs : SlotStart cfg h b k o) : cfg.blockAddr b ≤ o := by
  have hlow := hs.low
  omega

theorem SlotStart.index (hs : SlotStart cfg h b k o) : objectIndex cfg h.mem o = k := by
  have hin := hs.inBlock
  rw [hs.addr] at hin ⊢
  exact objectIndex_slotAddr hs.size.1 rfl hin

theorem SlotStart.index_lt (hs : SlotStart cfg h b k o) : k < 8 * bitmapBytesCount := by
  have hin := hs.inBlock
  have hlt : objectIndex cfg h.mem o < 8 * bitmapBytesCount := objectIndex_lt hs.blockAddr_le hin
  rwa [hs.index] at hlt

theorem SlotStart.congr (hs : SlotStart cfg h b k o) (same : SameButMarks cfg h h') :
    SlotStart cfg h' b k o := by
  have hsize := same.headerSize b
  constructor
  · exact hs.block
  · rw [hsize]
    exact hs.size
  · rw [hsize]
    exact hs.addr
  · exact hs.inBlock

theorem IsStart.congr (hs : IsStart cfg h o) (same : SameButMarks cfg h h') :
    IsStart cfg h' o := by
  rcases hs with hl | ⟨b, k, hs⟩
  · exact Or.inl hl
  · exact Or.inr ⟨b, k, hs.congr same⟩

theorem OccupiedInside.congr (hi : OccupiedInside cfg h) (same : SameButMarks cfg h h') :
    OccupiedInside cfg h' := by
  have hbelow : ∀ {p i}, Below h'.large.nodes p i → Below h.large.nodes p i := by
    intro p i hb
    induction hb with
    | here i => exact .here i
    | @left i j _ ih => exact .left ((same.nodes i).2.2.1 ▸ ih)
    | @right i j _ ih => exact .right ((same.nodes i).2.2.2 ▸ ih)
  intro i hb
  rw [same.occupiedRoot] at hb
  have hold := hi i (hbelow hb)
  rw [Header.stop] at *
  rwa [(same.nodes i).1, (same.nodes i).2.1]

/-- `get_object` on an address of the small heap behind a block header. -/
theorem getObject_small (hb : b < cfg.blocksCount)
    (hlo : cfg.blockAddr b + blockHeaderSize ≤ a) (hhi : a < cfg.blockAddr b + blockSize) :
    getObject cfg fuel h a = some
      (if getSizeWithAlignment (headerSize cfg h.mem b) = 0 ∨
          maxObjectSize < getSizeWithAlignment (headerSize cfg h.mem b) then none
        else some (a - (a - cfg.blockAddr b - blockHeaderSize) %
          getSizeWithAlignment (headerSize cfg h.mem b))) := by
  have hin : cfg.InSmall a := by
    have hend := cfg.blockAddr_end_le hb
    constructor
    · simp only [Config.blockAddr] at hlo
      omega
    · omega
  have hsize : getObjectSize cfg fuel h a = _ := getObjectSize_small hb (by omega) hhi
  simp only [getObject, if_neg (cfg.not_inLarge_of_inSmall hin), if_pos hin,
    getBlockAddr_of_mem (by omega : cfg.blockAddr b ≤ a) hhi, hsize, Option.map_some,
    getSizeWithAlignment_idem]
  rw [if_neg (by omega)]

/-- What `get_object` returns in the small heap is the start of the slot that the address lies
in. -/
theorem getObject_slot (hs : cfg.InSmall a) (hg : getObject cfg fuel h a = some (some o)) :
    ∃ b k, SlotStart cfg h b k o ∧ o ≤ a ∧
      a < o + getSizeWithAlignment (headerSize cfg h.mem b) ∧
      a < cfg.blockAddr b + blockSize := by
  have hl : ¬ cfg.InLarge a := cfg.not_inLarge_of_inSmall hs
  obtain ⟨b, hb, hlo, hhi⟩ := exists_block hs.1 hs.2
  by_cases hhead : a < cfg.blockAddr b + blockHeaderSize
  · simp only [getObject, if_neg hl, if_pos hs, getBlockAddr_of_mem hlo hhi] at hg
    rw [if_pos (by omega)] at hg
    cases hg
  · rw [getObject_small hb (by omega) hhi, Option.some.injEq] at hg
    split at hg
    · cases hg
    · rename_i hsize
      rw [not_or, not_lt] at hsize
      cases hg
      set c := getSizeWithAlignment (headerSize cfg h.mem b) with hc
      have hn : 1 ≤ headerSize cfg h.mem b := by
        by_contra h0
        have hzero : headerSize cfg h.mem b = 0 := by omega
        rw [hzero] at hc
        exact hsize.1 hc
      have hdiv := Nat.div_add_mod (a - cfg.blockAddr b - blockHeaderSize) c
      have hmod := Nat.mod_lt (a - cfg.blockAddr b - blockHeaderSize) (Nat.pos_of_ne_zero hsize.1)
      refine ⟨b, (a - cfg.blockAddr b - blockHeaderSize) / c, ⟨hb, ⟨hn, ?_⟩, ?_, ?_⟩, ?_, ?_, hhi⟩
      · exact (le_getSizeWithAlignment _).trans hsize.2
      · rw [Config.slotAddr, ← hc, Nat.mul_comm]
        omega
      · omega
      · omega
      · omega

/-- What `get_object` returns starts a slot, or a block of the large heap. -/
theorem getObject_start (hi : OccupiedInside cfg h)
    (hg : getObject cfg fuel h a = some (some o)) : IsStart cfg h o := by
  by_cases hl : cfg.InLarge a
  · simp only [getObject, if_pos hl, Option.map_eq_some_iff] at hg
    obtain ⟨found, hfound, ho⟩ := hg
    cases found with
    | none => cases ho
    | some i =>
      cases ho
      obtain ⟨hbelow, hlo, hhi⟩ := extSearchBst_below hfound
      rcases hi i hbelow with hz | ⟨hstart, hend⟩
      · simp only [Header.stop] at hhi
        omega
      · exact Or.inl ⟨hstart, by omega⟩
  · by_cases hs : cfg.InSmall a
    · obtain ⟨b, k, hslot, -⟩ := getObject_slot hs hg
      exact Or.inr ⟨b, k, hslot⟩
    · simp only [getObject, if_neg hl, if_neg hs] at hg
      cases hg

/-- An object is resolved to itself. -/
theorem SlotStart.getObject (hs : SlotStart cfg h b k o) :
    getObject cfg fuel h o = some (some o) := by
  have hlow := hs.low
  have hpos := getSizeWithAlignment_pos hs.size.1
  have hle := getSizeWithAlignment_le hs.size.2
  have hmod : (o - cfg.blockAddr b - blockHeaderSize) %
      getSizeWithAlignment (headerSize cfg h.mem b) = 0 := by
    rw [hs.addr, Config.slotAddr, show ∀ x y z : Nat, x + y + z - x - y = z by omega,
      Nat.mul_mod_left]
  rw [getObject_small hs.block hlow hs.inBlock, if_neg (by omega), hmod, Nat.sub_zero]

theorem SlotStart.isMarked (hs : SlotStart cfg h b k o) :
    isMarked cfg fuel h o = some (markBit cfg h.mem b k) := by
  have hin := hs.inSmall
  rw [GarbageCollector.isMarked, if_neg (cfg.not_inLarge_of_inSmall hin), if_pos hin,
    getBitByAddress_eq hs.blockAddr_le hs.inBlock, hs.index]
  cases markBit cfg h.mem b k <;> rfl

theorem isMarked_large (hl : cfg.InLarge o)
    (hs : searchBst fuel h.large.nodes h.large.occupiedRoot o = some (some i)) :
    GarbageCollector.isMarked cfg fuel h o = some (h.large.nodes i).block.isMarked := by
  rw [GarbageCollector.isMarked, if_pos hl, hs]
  rfl

theorem setMarked_same (nodes : Nodes) (i : Nat) : SameButFlags nodes (setMarked nodes i) := by
  intro j
  by_cases hj : j = i
  · subst hj
    simp [setMarked, setBlock]
  · simp [setMarked, setBlock, Function.update_of_ne hj]

/-- The mark an object has after `h'` is made from `h`. -/
def MarksOnly (cfg : Config) (fuel : Nat) (h h' : Heap) (o : Nat) : Prop :=
  GarbageCollector.isMarked cfg fuel h' o = some true ∧
    ∀ q, IsStart cfg h q → q ≠ o →
      GarbageCollector.isMarked cfg fuel h' q = GarbageCollector.isMarked cfg fuel h q

theorem setNodes_marksOnly (hl : cfg.InLarge o)
    (hs : searchBst fuel h.large.nodes h.large.occupiedRoot o = some (some i)) :
    SameButMarks cfg h (h.setNodes (setMarked h.large.nodes i)) ∧
      MarksOnly cfg fuel h (h.setNodes (setMarked h.large.nodes i)) o := by
  have hsame := setMarked_same h.large.nodes i
  have hsearch : ∀ q, searchBst fuel (setMarked h.large.nodes i) h.large.occupiedRoot q =
      searchBst fuel h.large.nodes h.large.occupiedRoot q := fun q => hsame.searchBst
  refine ⟨⟨SameOutsideBitmaps.refl _, rfl, rfl, rfl, hsame, rfl, rfl, rfl⟩, ?_, fun q hq hne => ?_⟩
  · rw [isMarked_large hl ((hsearch o).trans hs)]
    simp [Heap.setNodes, setMarked, setBlock]
  · rcases hq with hql | ⟨b', k', hq⟩
    · have hi := (searchBst_below hs).2
      simp only [GarbageCollector.isMarked, if_pos hql, Heap.setNodes, hsearch]
      cases hf : searchBst fuel h.large.nodes h.large.occupiedRoot q with
      | none => rfl
      | some found =>
        cases found with
        | none => rfl
        | some j =>
          have hj := (searchBst_below hf).2
          have hji : j ≠ i := by
            rintro rfl
            exact hne (hj.symm.trans hi)
          simp only [Option.bind_some, setMarked, setBlock, Function.update_of_ne hji]
    · have hq' : SlotStart cfg (h.setNodes (setMarked h.large.nodes i)) b' k' q := hq.congr
        ⟨SameOutsideBitmaps.refl _, rfl, rfl, rfl, hsame, rfl, rfl, rfl⟩
      rw [hq.isMarked, hq'.isMarked]
      rfl

theorem setMem_same (hs : SlotStart cfg h b k o) :
    SameButMarks cfg h (h.setMem (setBitByAddress cfg h.mem o 1#8)) :=
  ⟨setBitByAddress_same hs.block hs.blockAddr_le hs.inBlock true, rfl, rfl, rfl,
    SameButFlags.refl, rfl, rfl, rfl⟩

theorem setMem_marksOnly (hs : SlotStart cfg h b k o) :
    SameButMarks cfg h (h.setMem (setBitByAddress cfg h.mem o 1#8)) ∧
      MarksOnly cfg fuel h (h.setMem (setBitByAddress cfg h.mem o 1#8)) o := by
  have hsame := setMem_same hs
  have hbit : ∀ b' k', k' < 8 * bitmapBytesCount →
      markBit cfg (h.setMem (setBitByAddress cfg h.mem o 1#8)).mem b' k' =
        if b' = b ∧ k' = k then true else markBit cfg h.mem b' k' := by
    intro b' k' hk'
    have hset : markBit cfg (setBitByAddress cfg h.mem o 1#8) b' k' = _ :=
      markBit_setBitByAddress hs.blockAddr_le hs.inBlock true hk'
    rw [hs.index] at hset
    exact hset
  refine ⟨hsame, ?_, fun q hq hne => ?_⟩
  · rw [(hs.congr hsame).isMarked, hbit b k hs.index_lt, if_pos ⟨rfl, rfl⟩]
  · rcases hq with hql | ⟨b', k', hq⟩
    · simp only [GarbageCollector.isMarked, if_pos hql]
      rfl
    · rw [(hq.congr hsame).isMarked, hq.isMarked, hbit b' k' hq.index_lt, if_neg]
      rintro ⟨rfl, rfl⟩
      exact hne (hq.addr.trans hs.addr.symm)

/-- `mark_object` of an object that has a mark: it gets marked and nothing else changes. -/
theorem markObject_spec (ho : IsStart cfg h o)
    (hm : GarbageCollector.isMarked cfg fuel h o = some m) :
    ∃ h', markObject cfg fuel h o = some h' ∧ SameButMarks cfg h h' ∧
      MarksOnly cfg fuel h h' o := by
  rcases ho with hl | ⟨b, k, hs⟩
  · simp only [GarbageCollector.isMarked, if_pos hl, Option.bind_eq_some_iff] at hm
    obtain ⟨found, hfound, hflag⟩ := hm
    cases found with
    | none => cases hflag
    | some i =>
      refine ⟨h.setNodes (setMarked h.large.nodes i), ?_, setNodes_marksOnly hl hfound⟩
      rw [markObject, if_pos hl, hfound]
      rfl
  · refine ⟨h.setMem (setBitByAddress cfg h.mem o 1#8), ?_, setMem_marksOnly hs⟩
    have hin := hs.inSmall
    rw [markObject, if_neg (cfg.not_inLarge_of_inSmall hin), if_pos hin]

end Marks

end GarbageCollector
