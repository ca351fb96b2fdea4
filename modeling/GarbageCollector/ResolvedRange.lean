import GarbageCollector.Marking

/-!
# What `scan` reads

An object that `get_object` finds lies in the payload of one small block or in one occupied
large block, except that the bytes behind the last whole slot of a small block are taken for an
object that reaches into the next block.
-/

namespace GarbageCollector.ResolvedRange

open GarbageCollector BinaryTree

/-- `a` lies behind the last whole slot of a small block. -/
def BehindSlots (cfg : Config) (h : Heap) (a : Nat) : Prop :=
  ∃ b, b < cfg.blocksCount ∧ 1 ≤ headerSize cfg h.mem b ∧
    cfg.slotAddr b (headerSize cfg h.mem b) (slotCount (headerSize cfg h.mem b)) ≤ a ∧
    a < cfg.blockAddr b + blockSize

/-- The payload of the small block that contains `a`, or an occupied large block, as a range. -/
inductive Room (cfg : Config) (h : Heap) (a : Nat) : Nat → Nat → Prop where
  | payload (b : Nat) (hb : b < cfg.blocksCount) (hlo : cfg.blockAddr b ≤ a)
      (hhi : a < cfg.blockAddr b + blockSize) :
      Room cfg h a (cfg.blockAddr b + blockHeaderSize) (cfg.blockAddr b + blockSize)
  | block (i : Nat) (hi : Below h.large.nodes h.large.occupiedRoot i) :
      Room cfg h a (h.large.nodes i).block.addr (h.large.nodes i).block.stop

/-- The object at `o`, found at `a`, and the words that `scan` reads lie in one place. -/
def Inside (cfg : Config) (fuel : Nat) (h : Heap) (a o : Nat) : Prop :=
  ∃ size lo hi, getObjectSize cfg fuel h o = some size ∧ Room cfg h a lo hi ∧
    lo ≤ o ∧ o + size ≤ hi ∧
    ∀ w, w ∈ words o (o + size) → lo ≤ w ∧ w < hi ∧ (size % 8 = 0 → w + 8 ≤ hi)

/-- The small block headers hold sizes of small objects, and the occupied tree is a search tree of
blocks of the large heap. -/
structure WellFormed (cfg : Config) (h : Heap) (occupied : BlockTree) : Prop where
  sizes : ∀ b, b < cfg.blocksCount → headerSize cfg h.mem b ≤ maxObjectSize
  tree : Repr h.large.nodes h.large.occupiedRoot occupied
  search : occupied.SearchTree nodeAddr
  inside : ∀ v, v ∈ occupied.inorder → cfg.largeStart ≤ v.2.addr ∧ v.2.stop ≤ cfg.largeEnd

/-- The occupied tree is a search tree of blocks of the large heap. -/
structure OccupiedTree (cfg : Config) (h : Heap) (occupied : BlockTree) : Prop where
  tree : Repr h.large.nodes h.large.occupiedRoot occupied
  search : occupied.SearchTree nodeAddr
  inside : ∀ v, v ∈ occupied.inorder → cfg.largeStart ≤ v.2.addr ∧ v.2.stop ≤ cfg.largeEnd

section Range

variable {cfg : Config} {fuel : Nat} {h : Heap} {occupied : BlockTree} {a o lo hi size : Nat}

theorem WellFormed.occupiedTree (hw : WellFormed cfg h occupied) : OccupiedTree cfg h occupied :=
  ⟨hw.tree, hw.search, hw.inside⟩

theorem words_inside (hlo : lo ≤ o) (hhi : o + size ≤ hi) :
    ∀ w, w ∈ words o (o + size) → lo ≤ w ∧ w < hi ∧ (size % 8 = 0 → w + 8 ≤ hi) := by
  intro w hw
  obtain ⟨hle, hlt, hmod⟩ := mem_words.mp hw
  refine ⟨hlo.trans hle, Nat.lt_of_lt_of_le hlt hhi, fun hsize => ?_⟩
  omega

theorem OccupiedTree.exists_block (hw : OccupiedTree cfg h occupied) {i : Nat}
    (hi : Below h.large.nodes h.large.occupiedRoot i) :
    ∃ v, v ∈ occupied.inorder ∧ v.1 = i ∧ (h.large.nodes i).block = v.2 := by
  obtain ⟨v, hv, rfl⟩ := List.mem_map.mp ((below_iff hw.tree i).mp hi)
  exact ⟨v, hv, rfl, hw.tree.block_of_mem hv⟩

/-- A block is found by its start. -/
theorem OccupiedTree.searchBst (hw : OccupiedTree cfg h occupied) (hf : occupied.size < fuel)
    {v : Nat × Header} (hv : v ∈ occupied.inorder) :
    searchBst fuel h.large.nodes h.large.occupiedRoot v.2.addr = some (some v.1) := by
  rw [searchBst_repr hw.tree hf]
  exact congrArg some (congrArg (Option.map Prod.fst) (hw.search.search_of_mem hv))

/-- The size of the object in a slot. -/
theorem getObjectSize_slot {b k : Nat} (hs : SlotStart cfg h b k o) :
    getObjectSize cfg fuel h o = some (getSizeWithAlignment (headerSize cfg h.mem b)) :=
  getObjectSize_small hs.block hs.blockAddr_le hs.inBlock

/-- An address that is not behind the last whole slot finds a whole slot or a whole block. -/
theorem slot_lt_of_not_behind (hnot : ¬ BehindSlots cfg h a) {b k : Nat}
    (hs : SlotStart cfg h b k o) (hoa : o ≤ a) (hab : a < cfg.blockAddr b + blockSize) :
    k < slotCount (headerSize cfg h.mem b) := by
  by_contra hge
  refine hnot ⟨b, hs.block, hs.size.1, ?_, hab⟩
  refine (cfg.slotAddr_mono (Nat.le_of_not_lt hge)).trans ?_
  rw [← hs.addr]
  exact hoa

end Range

end GarbageCollector.ResolvedRange
