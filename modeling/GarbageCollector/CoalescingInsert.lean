import GarbageCollector.Intervals
import GarbageCollector.LargeSweep

/-!
# `insert_treap` on any free tree

One insertion keeps the free tree one and frees the nodes of the neighbours it absorbs. The
bytes determine the blocks, so a family of blocks can be inserted in any order.
-/

namespace GarbageCollector.CoalescingInsert

open GarbageCollector BinaryTree LinkedList LargeTiling

/-- A search tree on addresses and a heap on sizes, whose blocks are not empty and do not touch. -/
structure FreeBlocks (t : BlockTree) : Prop where
  search : t.SearchTree nodeAddr
  heap : t.MaxHeap nodeSize
  pos : ∀ v, v ∈ t.inorder → 0 < v.2.size
  apart : ∀ v, v ∈ t.inorder → ∀ w, w ∈ t.inorder → v ≠ w → v.2.Apart w.2
  no_touch : ∀ v, v ∈ t.inorder → ∀ w, w ∈ t.inorder → v.2.stop ≠ w.2.addr

/-- The node whose block ends where the block of `x` starts. -/
def leftNeighbors (t : BlockTree) (x : Nat × Header) : List Nat :=
  (t.inorder.filter fun v => v.2.stop = x.2.addr).map Prod.fst

/-- The node whose block starts where the block of `x` ends. -/
def rightNeighbors (t : BlockTree) (x : Nat × Header) : List Nat :=
  (t.inorder.filter fun v => x.2.stop = v.2.addr).map Prod.fst

/-- Calls of `insert_treap`, one after another. -/
def insertAll (fuel : Nat) :
    LargeAllocator → Option Nat → List Nat → Option (LargeAllocator × Option Nat)
  | s, root, [] => some (s, root)
  | s, root, i :: is =>
    (insertTreap fuel s root (some i)).bind fun p => insertAll fuel p.1 p.2 is

/-- A tree `t` at `p`, detached nodes `xs` outside it, and the spare nodes. -/
structure Loose (s : LargeAllocator) (p : Option Nat) (t : BlockTree) (spare : List Nat)
    (xs : List (Nat × Header)) : Prop where
  tree : Repr s.nodes p t
  detached : ∀ x, x ∈ xs → s.nodes x.1 = ⟨x.2, none, none⟩
  spares : Spare s.nodes s.treenodeListHead spare
  nodup : (xs.map Prod.fst ++ (t.ids ++ spare)).Nodup

section Trees

variable {t l r : BlockTree} {x v w : Nat × Header}

theorem freeBlocks_iff : FreeBlocks t ↔ FreeTree t := by
  constructor
  · intro h
    refine ⟨⟨h.search.imp_of_mem fun {v w} hv hw hlt => ?_, h.pos⟩, h.heap⟩
    have hne : v ≠ w := by
      rintro rfl
      exact lt_irrefl _ hlt
    have hpos := h.pos w hw
    have htouch := h.no_touch v hv w hw
    rcases h.apart v hv w hw hne with ha | ha
    · exact lt_of_le_of_ne ha htouch
    · simp only [Header.stop, nodeAddr] at *
      omega
  · intro h
    refine ⟨h.spaced.searchTree, h.heap, h.spaced.2, fun v hv w hw hne => ?_,
      fun v hv w hw => LargeSweep.spaced_no_touch h.spaced hv hw⟩
    have hpair : t.inorder.Pairwise fun v w => v.2.Apart w.2 :=
      h.spaced.1.imp fun hlt => Or.inl (Nat.le_of_lt hlt)
    exact hpair.forall hv hw hne

theorem leftNeighbors_of_below (hbelow : ∀ v, v ∈ t.inorder → v.2.stop < x.2.addr) :
    leftNeighbors t x = [] := by
  rw [leftNeighbors, List.map_eq_nil_iff, List.filter_eq_nil_iff]
  intro v hv
  simp only [decide_eq_true_eq]
  exact Nat.ne_of_lt (hbelow v hv)

theorem rightNeighbors_of_above (habove : ∀ v, v ∈ t.inorder → x.2.stop < v.2.addr) :
    rightNeighbors t x = [] := by
  rw [rightNeighbors, List.map_eq_nil_iff, List.filter_eq_nil_iff]
  intro v hv
  simp only [decide_eq_true_eq]
  exact Nat.ne_of_lt (habove v hv)

theorem coalesceLeft_spare (spare : List Nat) (h : FreeTree l)
    (hbelow : ∀ v, v ∈ l.inorder → v.2.stop ≤ x.2.addr) :
    (coalesceLeft l spare x).2.1 = leftNeighbors l x ++ spare := by
  rcases coalesceLeft_cases spare h hbelow with ⟨ha, hgap⟩ | ⟨nb, l', hin, htouch, -, ha⟩
  · rw [ha, leftNeighbors_of_below hgap]
    rfl
  · have hpair := h.spaced.1
    rw [hin, List.pairwise_append] at hpair
    have hpos := h.spaced.2 nb (by simp [hin])
    have hl' : leftNeighbors l' x = [] := by
      apply leftNeighbors_of_below
      intro v hv
      have hlt := hpair.2.2 v hv nb (by simp)
      simp only [Header.stop] at *
      omega
    have hl : leftNeighbors l x = leftNeighbors l' x ++ [nb.1] := by
      simp only [leftNeighbors, hin, List.filter_append, List.map_append, htouch, decide_true,
        List.filter_cons_of_pos, List.filter_nil, List.map_cons, List.map_nil]
    rw [ha, hl, hl']
    rfl

theorem coalesceRight_spare (spare : List Nat) (h : FreeTree r)
    (habove : ∀ v, v ∈ r.inorder → x.2.stop ≤ v.2.addr) :
    (coalesceRight r spare x).2.1 = rightNeighbors r x ++ spare := by
  rcases coalesceRight_cases spare h habove with ⟨ha, hgap⟩ | ⟨nb, r', hin, htouch, -, ha⟩
  · rw [ha, rightNeighbors_of_above hgap]
    rfl
  · have hpair := h.spaced.1
    rw [hin, List.pairwise_cons] at hpair
    have hpos := h.spaced.2 nb (by simp [hin])
    have hr' : rightNeighbors r' x = [] := by
      apply rightNeighbors_of_above
      intro v hv
      have hlt := hpair.1 v hv
      simp only [Header.stop] at *
      omega
    have hr : rightNeighbors r x = nb.1 :: rightNeighbors r' x := by
      simp only [rightNeighbors, hin, htouch, decide_true, List.filter_cons_of_pos,
        List.map_cons]
    rw [ha, hr, hr']
    rfl

/-- The nodes that go back to the spare list are those of the neighbours. -/
theorem coalesce_spare (spare : List Nat) (h : FreeTree t) (hx : 0 < x.2.size)
    (hapart : ∀ v, v ∈ t.inorder → v.2.Apart x.2) :
    (coalesce t spare x).2 = rightNeighbors t x ++ (leftNeighbors t x ++ spare) := by
  obtain ⟨hfl, hfr, hbelow, habove⟩ := splitAround h hx hapart
  have hin := NodeTree.inorder_split nodeAddr x.2.addr t
  obtain ⟨-, hstop, -⟩ := coalesceLeft_spec spare hfl hx hbelow
  have hleft : leftNeighbors t x = leftNeighbors (t.split nodeAddr x.2.addr).1 x := by
    have hnone : leftNeighbors (t.split nodeAddr x.2.addr).2 x = [] := by
      rw [leftNeighbors, List.map_eq_nil_iff, List.filter_eq_nil_iff]
      intro v hv
      have hle := habove v hv
      rw [decide_eq_true_eq]
      simp only [Header.stop] at hle ⊢
      omega
    rw [leftNeighbors, ← hin, List.filter_append, List.map_append]
    exact (congrArg _ hnone).trans (List.append_nil _)
  have hright : rightNeighbors t x = rightNeighbors (t.split nodeAddr x.2.addr).2 x := by
    have hnone : rightNeighbors (t.split nodeAddr x.2.addr).1 x = [] := by
      rw [rightNeighbors, List.map_eq_nil_iff, List.filter_eq_nil_iff]
      intro v hv
      have hle := hbelow v hv
      rw [decide_eq_true_eq]
      simp only [Header.stop] at hle ⊢
      omega
    rw [rightNeighbors, ← hin, List.filter_append, List.map_append]
    exact congrArg (· ++ _) hnone
  rw [hleft, hright, ← coalesceLeft_spare spare hfl hbelow]
  have hx' : rightNeighbors (t.split nodeAddr x.2.addr).2 x = rightNeighbors
      (t.split nodeAddr x.2.addr).2 (coalesceLeft (t.split nodeAddr x.2.addr).1 spare x).2.2 := by
    simp only [rightNeighbors, hstop]
  rw [hx']
  exact coalesceRight_spare _ hfr fun v hv => by rw [hstop]; exact habove v hv

theorem length_filter_le_one {vs : List (Nat × Header)} (h : Spaced vs)
    {p : Nat × Header → Bool}
    (hp : ∀ v, p v = true → ∀ w, p w = true → w.2.addr ≤ v.2.stop) :
    (vs.filter p).length ≤ 1 := by
  have hs := h.sublist (List.filter_sublist (p := p))
  cases hcase : vs.filter p with
  | nil => exact Nat.zero_le _
  | cons a rest =>
    cases rest with
    | nil => exact le_rfl
    | cons b rest =>
      rw [hcase] at hs
      have hlt := (List.pairwise_cons.mp hs.1).1 b List.mem_cons_self
      have hpa : p a = true := (List.mem_filter.mp (hcase ▸ List.mem_cons_self)).2
      have hpb : p b = true := (List.mem_filter.mp (hcase ▸ by simp : b ∈ vs.filter p)).2
      exact absurd hlt (Nat.not_lt_of_le (hp a hpa b hpb))

theorem length_leftNeighbors (h : FreeTree t) : (leftNeighbors t x).length ≤ 1 := by
  rw [leftNeighbors, List.length_map]
  apply length_filter_le_one h.spaced
  intro v hv w hw
  have hv := of_decide_eq_true hv
  have hw := of_decide_eq_true hw
  simp only [Header.stop] at *
  omega

theorem length_rightNeighbors (h : FreeTree t) : (rightNeighbors t x).length ≤ 1 := by
  rw [rightNeighbors, List.length_map]
  apply length_filter_le_one h.spaced
  intro v hv w hw
  have hv := of_decide_eq_true hv
  have hw := of_decide_eq_true hw
  simp only [Header.stop] at *
  omega

/-- The blocks from left to right as intervals. -/
def intervals (t : BlockTree) : List (Nat × Nat) := t.inorder.map fun v => (v.2.addr, v.2.stop)

theorem intervals_spaced (h : FreeTree t) : Intervals.Spaced (intervals t) := by
  constructor
  · exact List.pairwise_map.mpr h.spaced.1
  · intro p hp
    obtain ⟨v, hv, rfl⟩ := List.mem_map.mp hp
    have hpos := h.spaced.2 v hv
    simp only [Header.stop]
    omega

theorem points_intervals (t : BlockTree) : Intervals.points (intervals t) = covered t.blocks := by
  ext y
  simp only [Intervals.mem_points, mem_covered, intervals, BlockTree.blocks, List.mem_map,
    exists_exists_and_eq_and]

theorem extents_eq_map (t : BlockTree) :
    t.extents = (intervals t).map fun p => (p.1, p.2 - p.1) := by
  simp only [BlockTree.extents, intervals, List.map_map, Function.comp_def, Header.stop,
    Nat.add_sub_cancel_left]

theorem extents_eq_of_covered {t t' : BlockTree} (h : FreeTree t) (h' : FreeTree t')
    (hcov : covered t.blocks = covered t'.blocks) : t.extents = t'.extents := by
  have hpoints : Intervals.points (intervals t) = Intervals.points (intervals t') := by
    rw [points_intervals, points_intervals, hcov]
  rw [extents_eq_map, extents_eq_map,
    (intervals_spaced h).eq_of_points (intervals_spaced h') hpoints]

/-- Free blocks that fill a range are one block. -/
theorem extents_of_covered_Ico {a size : Nat} (h : FreeTree t) (hpos : 0 < size)
    (hcov : covered t.blocks = Set.Ico a (a + size)) : t.extents = [(a, size)] := by
  have hleaf : FreeTree (NodeTree.leaf (0, (⟨a, size, false⟩ : Header))) := freeTree_leaf hpos
  exact extents_eq_of_covered h hleaf
    (hcov.trans (covered_leaf (x := (0, ⟨a, size, false⟩))).symm)

end Trees

section Runs

variable {s : LargeAllocator} {p : Option Nat} {t : BlockTree} {spare : List Nat}
  {x : Nat × Header} {xs ys : List (Nat × Header)} {fuel : Nat} {cfg : Config}

/-- A family of blocks that are not empty and apart from each other and from the tree. -/
structure Family (t : BlockTree) (xs : List (Nat × Header)) : Prop where
  pos : ∀ x, x ∈ xs → 0 < x.2.size
  apart : xs.Pairwise fun x y => x.2.Apart y.2
  outside : ∀ x, x ∈ xs → ∀ v, v ∈ t.inorder → v.2.Apart x.2

/-- What one call of `insert_treap` does with the tree and the spare nodes. -/
structure Inserted (s s' : LargeAllocator) (p' : Option Nat) (t t' : BlockTree)
    (spare : List Nat) (x : Nat × Header) : Prop where
  tree : Repr s'.nodes p' t'
  blocks : FreeBlocks t'
  bytes : covered t'.blocks = covered t.blocks ∪ Set.Ico x.2.addr x.2.stop
  absorbed : (leftNeighbors t x).length ≤ 1 ∧ (rightNeighbors t x).length ≤ 1
  spares : Spare s'.nodes s'.treenodeListHead (rightNeighbors t x ++ (leftNeighbors t x ++ spare))
  nodes : (t'.ids ++ (rightNeighbors t x ++ (leftNeighbors t x ++ spare))).Perm
    (x.1 :: (t.ids ++ spare))
  rest : Within s s' (x.1 :: t.ids)

theorem Loose.around (h : Loose s p t spare xs) (hx : x ∈ xs) : Around s p t spare x := by
  refine ⟨h.tree, h.detached x hx, h.spares, ?_⟩
  obtain ⟨-, hn, hd⟩ := List.nodup_append'.mp h.nodup
  exact List.nodup_cons.mpr ⟨hd (List.mem_map_of_mem hx), hn⟩

theorem insertTreap_inserted (h : Around s p t spare x) (hfree : FreeTree t) (hpos : 0 < x.2.size)
    (hapart : ∀ v, v ∈ t.inorder → v.2.Apart x.2) (hf : t.size + 1 < fuel) :
    ∃ s' p' t', insertTreap fuel s p (some x.1) = some (s', p') ∧
      Inserted s s' p' t t' spare x := by
  obtain ⟨s', p', hrun, hrep, hspare, hwithin⟩ := insertTreap_repr h hf
  obtain ⟨hfree', hcov⟩ := coalesce_spec spare hfree hpos hapart
  have hids := coalesce_ids t spare x
  rw [coalesce_spare spare hfree hpos hapart] at hspare hids
  exact ⟨s', p', _, hrun, hrep, freeBlocks_iff.mpr hfree', hcov,
    ⟨length_leftNeighbors hfree, length_rightNeighbors hfree⟩, hspare, hids, hwithin⟩

/-- The nodes that are still to be inserted stay as they are. -/
theorem Inserted.loose {s' : LargeAllocator} {p' : Option Nat} {t' : BlockTree}
    (hi : Inserted s s' p' t t' spare x) (h : Loose s p t spare (x :: xs)) :
    Loose s' p' t' (rightNeighbors t x ++ (leftNeighbors t x ++ spare)) xs := by
  have hn := h.nodup
  rw [List.map_cons, List.cons_append, ← List.perm_middle.nodup_iff] at hn
  have hd := (List.nodup_append'.mp hn).2.2
  constructor
  · exact hi.tree
  · intro y hy
    rw [hi.rest.nodes y.1 fun hin => ?_]
    · exact h.detached y (List.mem_cons_of_mem _ hy)
    · apply hd (List.mem_map_of_mem hy)
      rcases List.mem_cons.mp hin with heq | hin
      · rw [heq]
        exact List.mem_cons_self
      · exact List.mem_cons_of_mem _ (List.mem_append_left _ hin)
  · exact hi.spares
  · exact ((hi.nodes.append_left _).nodup_iff).mpr hn

theorem Inserted.family {s' : LargeAllocator} {p' : Option Nat} {t' : BlockTree}
    (hi : Inserted s s' p' t t' spare x) (hfam : Family t (x :: xs)) : Family t' xs := by
  obtain ⟨hxs, hpair⟩ := List.pairwise_cons.mp hfam.apart
  refine ⟨fun y hy => hfam.pos y (List.mem_cons_of_mem _ hy), hpair, fun y hy v hv => ?_⟩
  have hposy := hfam.pos y (List.mem_cons_of_mem _ hy)
  refine (apart_of_disjoint hposy (hi.blocks.pos v hv) (List.mem_map_of_mem hv) ?_).symm
  have hout (w : Header) (hw : w.Apart y.2) {z : Nat} (hzy : z ∈ Set.Ico y.2.addr y.2.stop) :
      ¬ (w.addr ≤ z ∧ z < w.stop) := by
    rw [Set.mem_Ico] at hzy
    rcases hw with hle | hle
    · omega
    · omega
  rw [Set.disjoint_left]
  intro z hzy hz
  rw [show covered (t'.inorder.map Prod.snd) = _ from hi.bytes] at hz
  rcases hz with ⟨b, hb, hzb⟩ | hzx
  · obtain ⟨w, hw, rfl⟩ := List.mem_map.mp hb
    exact hout w.2 (hfam.outside y (List.mem_cons_of_mem _ hy) w hw) hzy hzb
  · exact hout x.2 (hxs y hy) hzy hzx

theorem Inserted.size_le {s' : LargeAllocator} {p' : Option Nat} {t' : BlockTree}
    (hi : Inserted s s' p' t t' spare x) : t'.size ≤ t.size + 1 := by
  have hlen := hi.nodes.length_eq
  simp only [List.length_append, List.length_cons, length_ids] at hlen
  omega

/-- The whole family goes into the tree, one node after the other. -/
theorem insertAll_ends (h : Loose s p t spare xs) (hfree : FreeTree t) (hfam : Family t xs)
    (hf : t.size + xs.length < fuel) :
    ∃ s' p' t', insertAll fuel s p (xs.map Prod.fst) = some (s', p') ∧ Repr s'.nodes p' t' ∧
      FreeTree t' ∧ covered t'.blocks = covered t.blocks ∪ covered (xs.map Prod.snd) := by
  induction xs generalizing s p t spare with
  | nil =>
    refine ⟨s, p, t, rfl, h.tree, hfree, ?_⟩
    rw [List.map_nil, covered_nil, Set.union_empty]
  | cons x xs ih =>
    rw [List.length_cons] at hf
    obtain ⟨s₁, p₁, t₁, hrun, hi⟩ := insertTreap_inserted (h.around List.mem_cons_self) hfree
      (hfam.pos x List.mem_cons_self) (hfam.outside x List.mem_cons_self)
      (by omega : t.size + 1 < fuel)
    have hle := hi.size_le
    obtain ⟨s', p', t', hrun', hrep, hfree', hcov⟩ := ih (hi.loose h)
      (freeBlocks_iff.mp hi.blocks) (hi.family hfam) (by omega)
    refine ⟨s', p', t', ?_, hrep, hfree', ?_⟩
    · rw [List.map_cons, insertAll, hrun, Option.bind_some]
      exact hrun'
    · rw [hcov, hi.bytes, List.map_cons, covered_cons, Set.union_assoc]

theorem Loose.perm (h : Loose s p t spare xs) (hperm : ys.Perm xs) : Loose s p t spare ys := by
  refine ⟨h.tree, fun y hy => h.detached y (hperm.mem_iff.mp hy), h.spares, ?_⟩
  exact (((hperm.map Prod.fst).append_right _).nodup_iff).mpr h.nodup

theorem Family.perm (h : Family t xs) (hperm : ys.Perm xs) : Family t ys := by
  refine ⟨fun y hy => h.pos y (hperm.mem_iff.mp hy), ?_,
    fun y hy => h.outside y (hperm.mem_iff.mp hy)⟩
  exact (hperm.pairwise_iff fun {_ _} hxy => hxy.symm).mpr h.apart

/-- Any node of the family can be inserted, with its neighbours absorbed; the blocks after the
whole family do not depend on the order, and are one block if they fill the heap. -/
theorem insert_treap_coalesces (h : Loose s p t spare xs) (hfree : FreeBlocks t)
    (hfam : Family t xs) (hf : t.size + xs.length < fuel) :
    (∀ x, x ∈ xs → ∃ s' p' t', insertTreap fuel s p (some x.1) = some (s', p') ∧
      Inserted s s' p' t t' spare x) ∧
    ∃ blocks : List (Nat × Nat), (∀ ys : List (Nat × Header), ys.Perm xs →
      ∃ s' p' t', insertAll fuel s p (ys.map Prod.fst) = some (s', p') ∧
        Repr s'.nodes p' t' ∧ FreeBlocks t' ∧ t'.extents = blocks) ∧
      (covered t.blocks ∪ covered (xs.map Prod.snd) = Set.Ico cfg.largeStart cfg.largeEnd →
        blocks = [(cfg.largeStart, cfg.heapSize)]) := by
  have htree := freeBlocks_iff.mp hfree
  constructor
  · intro x hx
    have hlen := List.length_pos_of_mem hx
    exact insertTreap_inserted (h.around hx) htree (hfam.pos x hx) (hfam.outside x hx)
      (by omega : t.size + 1 < fuel)
  · obtain ⟨s₀, p₀, t₀, -, -, hfree₀, hcov₀⟩ := insertAll_ends h htree hfam hf
    refine ⟨t₀.extents, fun ys hperm => ?_, fun hfill => ?_⟩
    · obtain ⟨s', p', t', hrun, hrep, hfree', hcov⟩ := insertAll_ends (h.perm hperm) htree
        (hfam.perm hperm) (by rw [hperm.length_eq]; exact hf)
      refine ⟨s', p', t', hrun, hrep, freeBlocks_iff.mpr hfree',
        extents_eq_of_covered hfree' hfree₀ ?_⟩
      rw [hcov, hcov₀, covered_perm (hperm.map Prod.snd)]
    · exact extents_of_covered_Ico hfree₀ cfg.heapSize_pos (hcov₀.trans hfill)

end Runs

/-- The block of node 1 is free, those of nodes 0 and 2 are to be freed. -/
def middleFree : LargeAllocator where
  nodes := fun i =>
    match i with
    | 0 => ⟨⟨16384, 2016, false⟩, none, none⟩
    | 1 => ⟨⟨18400, 2016, false⟩, none, none⟩
    | 2 => ⟨⟨20416, 4160, false⟩, none, none⟩
    | _ => ⟨⟨0, 0, false⟩, none, none⟩
  treenodeListHead := some 3
  freeRoot := some 1
  occupiedRoot := none

def sideBlocks : List (Nat × Header) := [(0, ⟨16384, 2016, false⟩), (2, ⟨20416, 4160, false⟩)]

theorem insert_treap_coalesces_middle_free :
    ∃ s' p' t', insertAll 6 middleFree (some 1) [2, 0] = some (s', p') ∧ Repr s'.nodes p' t' ∧
      t'.extents = [(16384, 8192)] := by
  have hloose : Loose middleFree (some 1) (NodeTree.leaf (1, ⟨18400, 2016, false⟩)) [3]
      sideBlocks := by
    refine ⟨repr_leaf rfl, fun x hx => ?_, ⟨⟨rfl, rfl⟩, fun i hi => ?_⟩, ?_⟩
    · simp only [sideBlocks, List.mem_cons, List.not_mem_nil, or_false] at hx
      rcases hx with rfl | rfl
      · rfl
      · rfl
    · rw [List.mem_singleton] at hi
      subst hi
      rfl
    · simp [sideBlocks, BlockTree.ids]
  have hfam : Family (NodeTree.leaf (1, ⟨18400, 2016, false⟩)) sideBlocks := by
    constructor
    · simp [sideBlocks]
    · simp [sideBlocks, Header.Apart, Header.stop]
    · simp [sideBlocks, Header.Apart, Header.stop]
  have hfree : FreeBlocks (NodeTree.leaf (1, ⟨18400, 2016, false⟩)) :=
    freeBlocks_iff.mpr (freeTree_leaf (by decide))
  obtain ⟨-, blocks, hany, hfill⟩ := insert_treap_coalesces hloose hfree hfam
    (show _ < 6 by decide)
  have hblocks : blocks = [(twoBlocks.largeStart, twoBlocks.heapSize)] := by
    apply hfill
    rw [covered_leaf]
    ext y
    simp only [sideBlocks, List.map_cons, List.map_nil, covered_cons, covered_nil, Set.mem_union,
      Set.mem_Ico, Set.mem_empty_iff_false, or_false, Header.stop, twoBlocks, Config.largeEnd]
    omega
  obtain ⟨s', p', t', hrun, hrep, -, hext⟩ := hany sideBlocks.reverse (List.reverse_perm _)
  exact ⟨s', p', t', hrun, hrep, hext.trans hblocks⟩

end GarbageCollector.CoalescingInsert
