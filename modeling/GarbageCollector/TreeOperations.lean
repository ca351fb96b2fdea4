import GarbageCollector.LargeBounds
import GarbageCollector.TreePointers

/-!
# What the tree functions return

`remove_bst`, `split_treap`, `merge_treap` and `remove_treap` on a tree of any shape in the
store: the trees returned, their order and heap shape, and the node that `*removed` names.
-/

namespace GarbageCollector

open BinaryTree

variable {nodes : Nodes} {p q : Option Nat} {t u : BlockTree} {fuel k : Nat} {v : Nat × Header}

@[simp] theorem setLeft_self (nodes : Nodes) (i : Nat) : setLeft nodes i (nodes i).left = nodes :=
  Function.update_eq_self i nodes

@[simp] theorem setRight_self (nodes : Nodes) (i : Nat) :
    setRight nodes i (nodes i).right = nodes :=
  Function.update_eq_self i nodes

/-- What a caller of `remove_bst` relies on. -/
def RemovesBlock (fuel : Nat) (nodes : Nodes) (p : Option Nat) (t : BlockTree) (k : Nat) : Prop :=
  ∃ nodes' p' removed t', removeBst fuel nodes p k = some (nodes', p', removed) ∧
    Repr nodes' p' t' ∧ t'.SearchTree nodeAddr ∧
    t'.inorder.map Prod.snd = (t.inorder.map Prod.snd).filter (fun b => b.addr ≠ k) ∧
    (∀ b, b ∈ t.inorder.map Prod.snd → b.addr = k →
      ∃ i, removed = some i ∧ i ∉ t'.ids ∧ nodes' i = ⟨b, none, none⟩) ∧
    ((∀ b, b ∈ t.inorder.map Prod.snd → b.addr ≠ k) →
      removed = none ∧ p' = p ∧ nodes' = nodes)

/-- The node that holds `k` lacks a child. -/
def HasFreeSide (nodes : Nodes) (t : BlockTree) (k : Nat) : Prop :=
  ∀ i, i ∈ t.ids → (nodes i).block.addr = k → (nodes i).left = none ∨ (nodes i).right = none

theorem removeBst_absent (h : Repr nodes p t) (hf : t.size < fuel)
    (hk : ∀ w, w ∈ t.inorder → w.2.addr ≠ k) :
    removeBst fuel nodes p k = some (nodes, p, none) := by
  induction t generalizing p fuel with
  | nil =>
    cases h
    obtain ⟨fuel, rfl⟩ := Nat.exists_eq_add_one_of_ne_zero (Nat.ne_of_gt (Nat.zero_lt_of_lt hf))
    rfl
  | node l v r ihl ihr =>
    obtain ⟨rfl, hb, hl, hr⟩ := h
    obtain ⟨fuel, rfl⟩ := Nat.exists_eq_add_one_of_ne_zero (Nat.ne_of_gt (Nat.zero_lt_of_lt hf))
    simp only [NodeTree.size] at hf
    rw [removeBst, hb]
    rcases lt_trichotomy k v.2.addr with hlt | heq | hgt
    · rw [if_pos hlt, ihl hl (by omega) fun w hw => hk w (by simp [hw])]
      simp
    · exact absurd heq.symm (hk v (by simp))
    · rw [if_neg hgt.asymm, if_pos hgt, ihr hr (by omega) fun w hw => hk w (by simp [hw])]
      simp

theorem Repr.full_iff (h : Repr nodes p t) (hs : t.SearchTree nodeAddr) (hv : v ∈ t.inorder) :
    t.Full Header.addr v.2.addr ↔ (nodes v.1).left ≠ none ∧ (nodes v.1).right ≠ none := by
  induction t generalizing p with
  | nil => cases hv
  | node l w r ihl ihr =>
    obtain ⟨-, -, hl, hr⟩ := h
    obtain ⟨hsl, hsr, hlw, hwr⟩ := NodeTree.searchTree_node.mp hs
    simp only [NodeTree.inorder_node, List.mem_append, List.mem_cons] at hv
    rcases hv with hv | rfl | hv
    · have hlt : v.2.addr < w.2.addr := hlw v hv
      rw [NodeTree.full_of_lt hlt]
      exact ihl hl hsl hv
    · rw [NodeTree.full_of_eq rfl]
      exact and_congr (not_congr hl.root_eq.symm) (not_congr hr.root_eq.symm)
    · have hgt : w.2.addr < v.2.addr := hwr v hv
      rw [NodeTree.full_of_gt hgt]
      exact ihr hr hsr hv

theorem Repr.mem_addr (h : Repr nodes p t) {i : Nat} (hi : i ∈ t.ids) :
    ∃ w, w ∈ t.inorder ∧ w.1 = i ∧ w.2 = (nodes i).block := by
  obtain ⟨w, hw, rfl⟩ := List.mem_map.mp hi
  exact ⟨w, hw, rfl, (h.block_of_mem hw).symm⟩

/-- Nodes with different addresses are different nodes. -/
theorem Repr.nodup (h : Repr nodes p t) (hs : t.SearchTree nodeAddr) : t.ids.Nodup := by
  rw [BlockTree.ids, List.Nodup, List.pairwise_map]
  refine hs.imp_of_mem fun {v w} hv hw hlt he => ?_
  rw [nodeAddr, nodeAddr, ← h.block_of_mem hv, ← h.block_of_mem hw, he] at hlt
  exact absurd hlt (lt_irrefl _)

theorem removed_not_mem {x : Nat × Header} (hn : t.ids.Nodup)
    (hx : (t.remove Header.addr k).2 = some x) :
    x.1 ∉ BlockTree.ids (t.remove Header.addr k).1 := by
  have hnodup := (NodeTree.remove_ids Header.addr k t).nodup_iff.mpr hn
  rw [hx, Option.toList_some, List.singleton_append, List.map_cons] at hnodup
  exact (List.nodup_cons.mp hnodup).1

/-- The block that the node cut off carries is the one found, unless that has two children. -/
theorem Repr.reported (h : Repr nodes p t) (hs : t.SearchTree nodeAddr) (hv : v ∈ t.inorder) :
    ∃ x, (t.remove Header.addr v.2.addr).2 = some x ∧
      (x = v ∧ ((nodes v.1).left = none ∨ (nodes v.1).right = none) ∨
        v.2.addr < x.2.addr ∧ (nodes v.1).left ≠ none ∧ (nodes v.1).right ≠ none) := by
  obtain ⟨x, hx, hcase⟩ := NodeTree.remove_reported hs hv
  rw [h.full_iff hs hv] at hcase
  refine ⟨x, hx, hcase.imp_left fun hfound => ⟨hfound.1, ?_⟩⟩
  by_contra hboth
  exact hfound.2 (not_or.mp hboth)

/-- `remove_bst` names a node with the removed block unless the node that holds the block has two
children: then it names the node of the next block. -/
theorem removes_block_iff (h : Repr nodes p t) (hs : t.SearchTree nodeAddr)
    (hf : t.size < fuel) : RemovesBlock fuel nodes p t k ↔ HasFreeSide nodes t k := by
  have hn := h.nodup hs
  obtain ⟨nodes', p', hrun, hrep, -, hcut⟩ := removeBst_repr h hn hf k
  constructor
  · rintro ⟨nodes₁, p₁, removed, t₁, hrun₁, -, -, -, hreported, -⟩ i hi hk
    obtain ⟨w, hw, rfl, hblock⟩ := h.mem_addr hi
    obtain rfl : w.2.addr = k := hblock ▸ hk
    obtain ⟨x, hx, ⟨-, hfree⟩ | ⟨hlt, -⟩⟩ := h.reported hs hw
    · exact hfree
    · obtain ⟨j, hj, -, hnode⟩ := hreported w.2 (List.mem_map_of_mem hw) rfl
      obtain ⟨rfl, -, rfl⟩ : nodes₁ = nodes' ∧ p₁ = p' ∧ removed = some x.1 := by
        simpa [hrun, hx, eq_comm] using hrun₁
      cases hj
      rw [hcut x hx, TreeNode.mk.injEq] at hnode
      rw [hnode.1] at hlt
      exact absurd hlt (lt_irrefl _)
  · intro hfree
    refine ⟨nodes', p', _, _, hrun, hrep, hs.remove, ?_, ?_, ?_⟩
    · exact NodeTree.remove_inorder hs
    · rintro b hb rfl
      obtain ⟨w, hw, rfl⟩ := List.mem_map.mp hb
      obtain ⟨x, hx, ⟨rfl, -⟩ | ⟨-, hleft, hright⟩⟩ := h.reported hs hw
      · exact ⟨x.1, by rw [hx]; rfl, removed_not_mem hn hx, hcut x hx⟩
      · have hside := hfree w.1 (List.mem_map_of_mem hw) (by rw [h.block_of_mem hw])
        exact absurd hside (not_or.mpr ⟨hleft, hright⟩)
    · intro hk
      have habsent := removeBst_absent h hf fun w hw => hk w.2 (List.mem_map_of_mem hw)
      rw [hrun, Option.some.injEq, Prod.mk.injEq, Prod.mk.injEq] at habsent
      exact ⟨habsent.2.2, habsent.2.1, habsent.1⟩

/-- Node 0 holds the block at 18400 and has the blocks of nodes 1 and 2 on its sides. -/
def fullNodes : Nodes := fun i =>
  if i = 0 then ⟨⟨18400, 2016, false⟩, some 1, some 2⟩
  else if i = 1 then ⟨⟨16384, 2016, false⟩, none, none⟩
  else ⟨⟨20416, 4160, true⟩, none, none⟩

/-- `fullNodes` from node 0 on. -/
def fullTree : BlockTree :=
  .node (NodeTree.leaf (1, ⟨16384, 2016, false⟩)) (0, ⟨18400, 2016, false⟩)
    (NodeTree.leaf (2, ⟨20416, 4160, true⟩))

theorem fullTree_search : fullTree.SearchTree nodeAddr := by
  simp [NodeTree.SearchTree, fullTree, nodeAddr]

theorem fullTree_repr : Repr fullNodes (some 0) fullTree :=
  ⟨rfl, rfl, repr_leaf rfl, repr_leaf rfl⟩

theorem removes_block_iff_leaf : RemovesBlock 4 fullNodes (some 0) fullTree 16384 := by
  rw [removes_block_iff fullTree_repr fullTree_search (by decide)]
  intro i hi hk
  have hcases : i = 1 ∨ i = 0 ∨ i = 2 := by simpa [fullTree, NodeTree.leaf, BlockTree.ids] using hi
  rcases hcases with rfl | rfl | rfl
  · exact Or.inl rfl
  · cases hk
  · cases hk

/-- `*removed` is node 2, which carries the block at 20416 that stays in the tree. -/
theorem successor_reported :
    Repr fullNodes (some 0) fullTree ∧ fullTree.SearchTree nodeAddr ∧
      ¬ RemovesBlock 4 fullNodes (some 0) fullTree 18400 := by
  refine ⟨fullTree_repr, fullTree_search, ?_⟩
  rintro ⟨nodes', p', removed, t', hrun, -, -, -, hreported, -⟩
  obtain ⟨i, rfl, -, hnode⟩ := hreported ⟨18400, 2016, false⟩ (by decide) rfl
  have hresult : (removeBst 4 fullNodes (some 0) 18400).map (fun x => (x.2.2, (x.1 2).block.addr)) =
      some (some 2, 20416) := by decide
  simp only [hrun, Option.map_some, Option.some.injEq, Prod.mk.injEq] at hresult
  obtain ⟨rfl, haddr⟩ := hresult
  rw [hnode] at haddr
  cases haddr

/-- The pointer leads to a search tree on the addresses that is a heap on the sizes. -/
structure Treap (nodes : Nodes) (p : Option Nat) (t : BlockTree) : Prop where
  repr : Repr nodes p t
  search : t.SearchTree nodeAddr
  heap : t.MaxHeap nodeSize

def Merges (fuel : Nat) (nodes : Nodes) (p q : Option Nat) (inorder : List (Nat × Header)) : Prop :=
  ∃ nodes' p' t', mergeTreap fuel nodes p q = some (nodes', p') ∧ Treap nodes' p' t' ∧
    t'.inorder = inorder

/-- `split_treap` parts the tree at `k`, and `merge_treap` puts the parts together again. -/
def Splits (fuel : Nat) (nodes : Nodes) (p : Option Nat) (t : BlockTree) (k : Nat) : Prop :=
  ∃ nodes' pl pr l r, splitTreap fuel nodes p k = some (nodes', pl, pr) ∧
    Treap nodes' pl l ∧ Treap nodes' pr r ∧
    l.inorder = t.inorder.filter (fun v => v.2.addr ≤ k) ∧
    r.inorder = t.inorder.filter (fun v => k < v.2.addr) ∧
    Merges fuel nodes' pl pr t.inorder

/-- `remove_treap` takes out the block at `k` and names its node. -/
def Cuts (fuel : Nat) (nodes : Nodes) (p : Option Nat) (t : BlockTree) (k : Nat) : Prop :=
  ∃ nodes' p' removed t', removeTreap fuel nodes p k = some (nodes', p', removed) ∧
    Treap nodes' p' t' ∧ t'.inorder = t.inorder.filter (fun v => v.2.addr ≠ k) ∧
    (∀ v, v ∈ t.inorder → v.2.addr = k → removed = some v.1 ∧ (nodes' v.1).block = v.2) ∧
    ((∀ v, v ∈ t.inorder → v.2.addr ≠ k) → removed = none ∧ p' = p ∧ nodes' = nodes)

theorem ids_cut_subset (k : Nat) (t : BlockTree) :
    BlockTree.ids (t.cut nodeAddr nodeSize k).1 ⊆ t.ids := by
  intro i hi
  obtain ⟨w, hw, rfl⟩ := List.mem_map.mp hi
  exact List.mem_map_of_mem (NodeTree.mem_of_mem_cut hw)

theorem removeTreap_repr (h : Repr nodes p t) (hn : t.ids.Nodup) (hf : t.size < fuel) (k : Nat) :
    ∃ nodes' p', removeTreap fuel nodes p k =
        some (nodes', p', (t.cut nodeAddr nodeSize k).2.map Prod.fst) ∧
      Repr nodes' p' (t.cut nodeAddr nodeSize k).1 ∧ SameOff nodes nodes' t.ids := by
  induction t generalizing p fuel with
  | nil =>
    cases h
    obtain ⟨fuel, rfl⟩ := Nat.exists_eq_add_one_of_ne_zero (Nat.ne_of_gt (Nat.zero_lt_of_lt hf))
    exact ⟨nodes, none, rfl, rfl, SameOff.refl⟩
  | node l v r ihl ihr =>
    obtain ⟨rfl, hb, hl, hr⟩ := h
    obtain ⟨hnl, hnr, hvl, hvr, hdisj⟩ := nodup_ids_node.mp hn
    obtain ⟨fuel, rfl⟩ := Nat.exists_eq_add_one_of_ne_zero (Nat.ne_of_gt (Nat.zero_lt_of_lt hf))
    simp only [NodeTree.size] at hf
    rw [removeTreap, hb]
    rcases lt_trichotomy k v.2.addr with hlt | heq | hgt
    · obtain ⟨nodes', p', hrun, hp', hsame⟩ := ihl hl hnl (by omega : l.size < fuel)
      have hv := hsame v.1 hvl
      rw [if_neg hlt.ne', if_pos hlt, hrun, NodeTree.cut_of_lt (show k < nodeAddr v from hlt)]
      refine ⟨_, _, rfl, ?_, ?_⟩
      · apply repr_setLeft (by rw [hv, hb]) rfl hp' _ (fun hin => hvl (ids_cut_subset k l hin)) hvr
        rw [hv]
        exact hr.frame hsame (List.disjoint_symm hdisj)
      · refine (hsame.mono (by simp)).trans (sameOff_update _ ?_)
        simp
    · obtain ⟨nodes', p', hrun, hp', hsame⟩ := mergeTreap_repr hl hr
        (List.nodup_append'.mpr ⟨hnl, hnr, hdisj⟩) (by omega : l.size + r.size < fuel)
      rw [if_pos heq.symm, hrun, NodeTree.cut_of_eq (show nodeAddr v = k from heq.symm)]
      exact ⟨_, _, rfl, hp', hsame.mono ids_children_subset⟩
    · obtain ⟨nodes', p', hrun, hp', hsame⟩ := ihr hr hnr (by omega : r.size < fuel)
      have hv := hsame v.1 hvr
      rw [if_neg hgt.ne, if_neg hgt.asymm, hrun, NodeTree.cut_of_gt (show nodeAddr v < k from hgt)]
      refine ⟨_, _, rfl, ?_, ?_⟩
      · apply repr_setRight (by rw [hv, hb]) rfl hp' _ hvl (fun hin => hvr (ids_cut_subset k r hin))
        rw [hv]
        exact hl.frame hsame hdisj
      · refine (hsame.mono fun i hi => ?_).trans (sameOff_update _ ?_)
        · simp [hi]
        · simp

theorem removeTreap_absent (h : Repr nodes p t) (hf : t.size < fuel)
    (hk : ∀ w, w ∈ t.inorder → w.2.addr ≠ k) :
    removeTreap fuel nodes p k = some (nodes, p, none) := by
  induction t generalizing p fuel with
  | nil =>
    cases h
    obtain ⟨fuel, rfl⟩ := Nat.exists_eq_add_one_of_ne_zero (Nat.ne_of_gt (Nat.zero_lt_of_lt hf))
    rfl
  | node l v r ihl ihr =>
    obtain ⟨rfl, hb, hl, hr⟩ := h
    obtain ⟨fuel, rfl⟩ := Nat.exists_eq_add_one_of_ne_zero (Nat.ne_of_gt (Nat.zero_lt_of_lt hf))
    simp only [NodeTree.size] at hf
    rw [removeTreap, hb, if_neg (hk v (by simp))]
    by_cases hlt : k < v.2.addr
    · rw [if_pos hlt, ihl hl (by omega) fun w hw => hk w (by simp [hw])]
      simp
    · rw [if_neg hlt, ihr hr (by omega) fun w hw => hk w (by simp [hw])]
      simp

/-- Two trees in one store with separate addresses share no node. -/
theorem Repr.disjoint (h : Repr nodes p t) (h' : Repr nodes q u)
    (hlt : ∀ v, v ∈ t.inorder → ∀ w, w ∈ u.inorder → v.2.addr < w.2.addr) :
    List.Disjoint t.ids u.ids := by
  intro i hi hi'
  obtain ⟨v, hv, -, hblock⟩ := h.mem_addr hi
  obtain ⟨w, hw, -, hblock'⟩ := h'.mem_addr hi'
  have hvw := hlt v hv w hw
  rw [hblock, hblock'] at hvw
  exact absurd hvw (lt_irrefl _)

theorem Treap.merges (h : Treap nodes p t) (h' : Treap nodes q u)
    (hlt : ∀ v, v ∈ t.inorder → ∀ w, w ∈ u.inorder → v.2.addr < w.2.addr)
    (hf : t.size + u.size < fuel) : Merges fuel nodes p q (t.inorder ++ u.inorder) := by
  have hn : (t.ids ++ u.ids).Nodup := List.nodup_append'.mpr
    ⟨h.repr.nodup h.search, h'.repr.nodup h'.search, h.repr.disjoint h'.repr hlt⟩
  obtain ⟨nodes', p', hrun, hrep, -⟩ := mergeTreap_repr h.repr h'.repr hn hf
  refine ⟨nodes', p', _, hrun, ⟨hrep, ?_, h.heap.merge h'.heap⟩, NodeTree.inorder_merge _ _ _⟩
  rw [NodeTree.SearchTree, NodeTree.inorder_merge]
  exact List.pairwise_append.mpr ⟨h.search, h'.search, hlt⟩

theorem Treap.splits (h : Treap nodes p t) (hf : t.size < fuel) (k : Nat) :
    Splits fuel nodes p t k := by
  obtain ⟨nodes', pl, pr, hrun, hl, hr, -⟩ := splitTreap_repr h.repr (h.repr.nodup h.search) hf k
  have hheap := h.heap.split nodeAddr k
  have hfst : Treap nodes' pl (t.split nodeAddr k).1 :=
    ⟨hl, h.search.of_inorder_sublist (NodeTree.filter_split_fst h.search ▸ List.filter_sublist),
      hheap.1⟩
  have hsnd : Treap nodes' pr (t.split nodeAddr k).2 :=
    ⟨hr, h.search.of_inorder_sublist (NodeTree.filter_split_snd h.search ▸ List.filter_sublist),
      hheap.2⟩
  have hsize : (t.split nodeAddr k).1.size + (t.split nodeAddr k).2.size = t.size := by
    simp only [← NodeTree.length_inorder, ← List.length_append, NodeTree.inorder_split]
  have hmerge := hfst.merges hsnd (fun v hv w hw =>
    (NodeTree.split_fst_le h.search v hv).trans_lt (NodeTree.lt_split_snd h.search w hw))
    (hsize.trans_lt hf)
  rw [NodeTree.inorder_split] at hmerge
  exact ⟨nodes', pl, pr, _, _, hrun, hfst, hsnd, NodeTree.filter_split_fst h.search,
    NodeTree.filter_split_snd h.search, hmerge⟩

theorem Treap.cuts (h : Treap nodes p t) (hf : t.size < fuel) (k : Nat) :
    Cuts fuel nodes p t k := by
  obtain ⟨nodes', p', hrun, hrep, -⟩ := removeTreap_repr h.repr (h.repr.nodup h.search) hf k
  refine ⟨nodes', p', _, _, hrun, ⟨hrep, h.search.cut, h.heap.cut⟩, NodeTree.inorder_cut h.search,
    ?_, ?_⟩
  · rintro v hv rfl
    refine ⟨?_, ?_⟩
    · exact congrArg (Option.map Prod.fst) (NodeTree.cut_reported h.search hv)
    · rw [removeTreap_blocks hrun v.1]
      exact h.repr.block_of_mem hv
  · intro hk
    have habsent := removeTreap_absent h.repr hf hk
    rw [hrun, Option.some.injEq, Prod.mk.injEq, Prod.mk.injEq] at habsent
    exact ⟨habsent.2.2, habsent.2.1, habsent.1⟩

/-- `split_treap`, `merge_treap` and `remove_treap` keep the order and the heap shape. -/
theorem treap_operations (h : Treap nodes p t) :
    (∀ fuel k, t.size < fuel → Splits fuel nodes p t k) ∧
    (∀ q u fuel, Treap nodes q u →
      (∀ v, v ∈ t.inorder → ∀ w, w ∈ u.inorder → v.2.addr < w.2.addr) →
      t.size + u.size < fuel → Merges fuel nodes p q (t.inorder ++ u.inorder)) ∧
    ∀ fuel k, t.size < fuel → Cuts fuel nodes p t k := by
  refine ⟨fun fuel k hf => h.splits hf k, ?_, fun fuel k hf => h.cuts hf k⟩
  exact fun q u fuel hu hlt hf => h.merges hu hlt hf

/-- From node 0 on a treap of three blocks, two of the same size; node 3 holds a block behind. -/
def treapNodes : Nodes := fun i =>
  if i = 0 then ⟨⟨20416, 4160, false⟩, some 1, some 2⟩
  else if i = 1 then ⟨⟨16384, 2016, false⟩, none, none⟩
  else if i = 2 then ⟨⟨26592, 4160, false⟩, none, none⟩
  else ⟨⟨34784, 8192, false⟩, none, none⟩

/-- `treapNodes` from node 0 on. -/
def treapTree : BlockTree :=
  .node (NodeTree.leaf (1, ⟨16384, 2016, false⟩)) (0, ⟨20416, 4160, false⟩)
    (NodeTree.leaf (2, ⟨26592, 4160, false⟩))

theorem treapTree_treap : Treap treapNodes (some 0) treapTree := by
  refine ⟨⟨rfl, rfl, repr_leaf rfl, repr_leaf rfl⟩, ?_, ?_, ?_, ?_⟩
  · simp [NodeTree.SearchTree, treapTree, nodeAddr]
  · simp [nodeSize]
  · simp [nodeSize]
  · exact ⟨NodeTree.maxHeap_leaf _ _, NodeTree.maxHeap_leaf _ _⟩

/-- The parts at the root's address, the merge with a larger block behind and the removal of the
root. -/
theorem treap_operations_three :
    Splits 4 treapNodes (some 0) treapTree 20416 ∧
      Merges 5 treapNodes (some 0) (some 3) (treapTree.inorder ++ [(3, ⟨34784, 8192, false⟩)]) ∧
      Cuts 4 treapNodes (some 0) treapTree 20416 := by
  have hbehind : Treap treapNodes (some 3) (NodeTree.leaf (3, ⟨34784, 8192, false⟩)) :=
    ⟨repr_leaf rfl, by simp [NodeTree.SearchTree], NodeTree.maxHeap_leaf _ _⟩
  obtain ⟨hsplit, hmerge, hcut⟩ := treap_operations treapTree_treap
  refine ⟨hsplit 4 20416 (by decide), ?_, hcut 4 20416 (by decide)⟩
  refine hmerge (some 3) _ 5 hbehind ?_ (by decide)
  simp [treapTree]

end GarbageCollector
