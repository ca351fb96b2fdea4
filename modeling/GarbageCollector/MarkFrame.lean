import GarbageCollector.BlockOwnership
import GarbageCollector.LargeBounds
import GarbageCollector.Marking

/-!
# What marking leaves alone

In any state whose large blocks lie in the large heap, `mark` only sets bits of blocks that hold
objects and flags of nodes of the occupied tree, it clears none, and it ends with an empty stack.
-/

namespace GarbageCollector

/-- `h'` is `h` with more marks. -/
structure MarkFrame (cfg : Config) (h h' : Heap) : Prop where
  same : SameButMarks cfg h h'
  others : ∀ i, ¬ Below h.large.nodes h.large.occupiedRoot i → h'.large.nodes i = h.large.nodes i
  bits : ∀ b j, b < cfg.blocksCount → j < 8 * bitmapBytesCount → markBit cfg h'.mem b j = true →
    markBit cfg h.mem b j = true ∨ InRange (headerSize cfg h.mem b)
  keepsBits : ∀ b j, j < 8 * bitmapBytesCount → markBit cfg h.mem b j = true →
    markBit cfg h'.mem b j = true
  keepsFlags : ∀ i, (h.large.nodes i).block.isMarked = true →
    (h'.large.nodes i).block.isMarked = true

section Frame

variable {cfg : Config} {fuel steps : Nat} {h h' h'' : Heap} {m m' : Marker} {o a : Nat}
  {nodes nodes' : Nodes} {p : Option Nat} {i : Nat} {addrs : List Nat} {seg : Nat × Nat}
  {segments : List (Nat × Nat)}

theorem SameButFlags.below (hs : SameButFlags nodes nodes') (hb : Below nodes' p i) :
    Below nodes p i := by
  induction hb with
  | here i => exact .here i
  | @left i j _ ih => exact .left ((hs i).2.2.1 ▸ ih)
  | @right i j _ ih => exact .right ((hs i).2.2.2 ▸ ih)

theorem SameButFlags.inside (hs : SameButFlags nodes nodes') (hin : NodesInside cfg nodes) :
    NodesInside cfg nodes' := by
  intro i
  obtain ⟨haddr, hsize, -⟩ := hs i
  have hi := hin i
  rw [Header.Inside] at hi ⊢
  rwa [haddr, hsize]

theorem MarkFrame.refl : MarkFrame cfg h h :=
  ⟨SameButMarks.refl, fun _ _ => rfl, fun _ _ _ _ hbit => Or.inl hbit, fun _ _ _ hbit => hbit,
    fun _ hflag => hflag⟩

theorem MarkFrame.trans (hs : MarkFrame cfg h h') (hs' : MarkFrame cfg h' h'') :
    MarkFrame cfg h h'' where
  same := hs.same.trans hs'.same
  others := by
    intro i hi
    rw [hs'.others i, hs.others i hi]
    intro hb
    rw [hs.same.occupiedRoot] at hb
    exact hi (hs.same.nodes.below hb)
  bits := by
    intro b j hb hj hbit
    rcases hs'.bits b j hb hj hbit with hbit | hrange
    · exact hs.bits b j hb hj hbit
    · rw [hs.same.headerSize] at hrange
      exact Or.inr hrange
  keepsBits := fun b j hj hbit => hs'.keepsBits b j hj (hs.keepsBits b j hj hbit)
  keepsFlags := fun i hflag => hs'.keepsFlags i (hs.keepsFlags i hflag)

/-- What is marked stays marked. -/
theorem MarkFrame.marked (hs : MarkFrame cfg h h') (hm : isMarked cfg fuel h o = some true) :
    isMarked cfg fuel h' o = some true := by
  by_cases hl : cfg.InLarge o
  · simp only [isMarked, if_pos hl, hs.same.occupiedRoot, hs.same.nodes.searchBst] at hm ⊢
    obtain ⟨found, hfound, hflag⟩ := Option.bind_eq_some_iff.mp hm
    cases found with
    | none => cases hflag
    | some i =>
      rw [hfound]
      exact congrArg some (hs.keepsFlags i (Option.some.inj hflag))
  · by_cases hin : cfg.InSmall o
    · obtain ⟨b, hb, hlo, hhi⟩ := exists_block hin.1 hin.2
      have hidx : ∀ m : Bytes.Mem, objectIndex cfg m o < 8 * bitmapBytesCount :=
        fun m => objectIndex_lt hlo hhi
      have hsame : objectIndex cfg h'.mem o = objectIndex cfg h.mem o := by
        rw [objectIndex_of_mem hlo hhi, objectIndex_of_mem hlo hhi, hs.same.headerSize]
      simp only [isMarked, if_neg hl, if_pos hin, Option.some.injEq, getBitByAddress_eq hlo hhi,
        hsame] at hm ⊢
      cases hbit : markBit cfg h.mem b (objectIndex cfg h.mem o) with
      | true => simp [hs.keepsBits b _ (hidx _) hbit]
      | false => simp [hbit] at hm
    · simp only [isMarked, if_neg hl, if_neg hin] at hm
      cases hm

theorem NodesInside.occupied (hin : NodesInside cfg h.large.nodes) : OccupiedInside cfg h :=
  fun i _ => hin i

theorem markObject_frame (ho : IsStart cfg h o) (hm : markObject cfg fuel h o = some h') :
    MarkFrame cfg h h' := by
  rcases ho with hl | ⟨b, k, hs⟩
  · simp only [markObject, if_pos hl, Option.map_eq_some_iff] at hm
    obtain ⟨found, hfound, rfl⟩ := hm
    cases found with
    | none => exact MarkFrame.refl
    | some i =>
      refine ⟨(setNodes_marksOnly hl hfound).1, fun j hj => ?_, fun _ _ _ _ hbit => Or.inl hbit,
        fun _ _ _ hbit => hbit, fun j hflag => ?_⟩
      · have hne : j ≠ i := by
          rintro rfl
          exact hj (searchBst_below hfound).1
        exact Function.update_of_ne hne _ _
      · by_cases hj : j = i
        · subst hj
          simp [Heap.setNodes, setMarked, setBlock]
        · simpa [Heap.setNodes, setMarked, setBlock, hj] using hflag
  · have hin := hs.inSmall
    rw [markObject, if_neg (cfg.not_inLarge_of_inSmall hin), if_pos hin] at hm
    cases hm
    have hset : ∀ b' j, j < 8 * bitmapBytesCount →
        markBit cfg (setBitByAddress cfg h.mem o 1#8) b' j =
          if b' = b ∧ j = objectIndex cfg h.mem o then true else markBit cfg h.mem b' j :=
      fun _ _ hj => markBit_setBitByAddress hs.blockAddr_le hs.inBlock true hj
    refine ⟨setMem_same hs, fun _ _ => rfl, fun b' j hb' hj hbit => ?_, fun b' j hj hbit => ?_,
      fun _ hflag => hflag⟩
    · have hbit' := (hset b' j hj).symm.trans hbit
      split at hbit'
      · rename_i heq
        rw [heq.1]
        exact Or.inr hs.size
      · exact Or.inl hbit'
    · refine (hset b' j hj).trans ?_
      split
      · rfl
      · exact hbit

theorem markAndPush_frame (ho : IsStart cfg m.heap o)
    (hm : markAndPush cfg fuel m o = some m') : MarkFrame cfg m.heap m'.heap := by
  obtain ⟨marked, -, hm⟩ := Option.bind_eq_some_iff.mp hm
  split at hm
  · cases hm
    exact MarkFrame.refl
  · obtain ⟨heap, hmark, rfl⟩ := Option.map_eq_some_iff.mp hm
    exact markObject_frame ho hmark

theorem visitWords_frame (hin : OccupiedInside cfg m.heap)
    (hm : visitWords cfg fuel m addrs = some m') : MarkFrame cfg m.heap m'.heap := by
  induction addrs generalizing m with
  | nil =>
    cases hm
    exact MarkFrame.refl
  | cons w addrs ih =>
    rw [visitWords, List.foldlM_cons] at hm
    obtain ⟨m₁, hvisit, hm⟩ := Option.bind_eq_some_iff.mp hm
    obtain ⟨found, hfound, hvisit⟩ := Option.bind_eq_some_iff.mp hvisit
    have hframe : MarkFrame cfg m.heap m₁.heap := by
      cases found with
      | none =>
        cases hvisit
        exact MarkFrame.refl
      | some o => exact markAndPush_frame (getObject_start hin hfound) hvisit
    exact hframe.trans (ih (hin.congr hframe.same) hm)

theorem scan_frame (hin : OccupiedInside cfg m.heap) (hm : scan cfg fuel m a = some m') :
    MarkFrame cfg m.heap m'.heap := by
  obtain ⟨found, -, hm⟩ := Option.bind_eq_some_iff.mp hm
  cases found with
  | none =>
    cases hm
    exact MarkFrame.refl
  | some o =>
    obtain ⟨size, -, hm⟩ := Option.bind_eq_some_iff.mp hm
    exact visitWords_frame hin hm

theorem closure_frame (hin : OccupiedInside cfg m.heap)
    (hm : closure cfg fuel steps m = some m') :
    MarkFrame cfg m.heap m'.heap ∧ m'.stack.data = [] := by
  induction steps generalizing m with
  | zero => cases hm
  | succ steps ih =>
    rw [closure] at hm
    cases hdata : m.stack.data with
    | nil =>
      simp only [Stack.pop, hdata, Option.some.injEq] at hm
      subst hm
      exact ⟨MarkFrame.refl, hdata⟩
    | cons o rest =>
      simp only [Stack.pop, hdata] at hm
      obtain ⟨m₁, hscan, hm⟩ := Option.bind_eq_some_iff.mp hm
      have hframe := scan_frame (m := { m with stack := { m.stack with data := rest } }) hin hscan
      obtain ⟨hrest, hempty⟩ := ih (hin.congr hframe.same) hm
      exact ⟨hframe.trans hrest, hempty⟩

theorem segmentTraverse_frame (hin : OccupiedInside cfg m.heap)
    (hm : segmentTraverse cfg fuel m seg = some m') :
    MarkFrame cfg m.heap m'.heap ∧ m'.stack.data = [] := by
  rw [segmentTraverse] at hm
  split at hm
  · obtain ⟨m₁, hvisit, hm⟩ := Option.bind_eq_some_iff.mp hm
    have hframe := visitWords_frame hin hvisit
    obtain ⟨hrest, hempty⟩ := closure_frame (hin.congr hframe.same) hm
    exact ⟨hframe.trans hrest, hempty⟩
  · cases hm

theorem mark_frame (hin : OccupiedInside cfg m.heap) (hm : mark cfg fuel m segments = some m')
    (hempty : m.stack.data = []) : MarkFrame cfg m.heap m'.heap ∧ m'.stack.data = [] := by
  induction segments generalizing m with
  | nil =>
    cases hm
    exact ⟨MarkFrame.refl, hempty⟩
  | cons seg segments ih =>
    rw [mark, List.foldlM_cons] at hm
    obtain ⟨m₁, hseg, hm⟩ := Option.bind_eq_some_iff.mp hm
    obtain ⟨hframe, hempty₁⟩ := segmentTraverse_frame hin hseg
    obtain ⟨hrest, hempty'⟩ := ih (hin.congr hframe.same) hm hempty₁
    exact ⟨hframe.trans hrest, hempty'⟩

end Frame

end GarbageCollector
