import GarbageCollector.LargeHeap
import GarbageCollector.LinkedList
import Mathlib.Data.List.Nodup
import Mathlib.Data.List.Perm.Subperm

/-!
# Trees in the store of tree nodes

`Repr nodes p t` says that the pointer `p` leads to the tree `t`. Each pointer function of
`treap.c` and `binary-search-tree.c` does to the store what the operation on trees does, and
leaves the nodes outside the tree alone.
-/

namespace GarbageCollector

open BinaryTree LinkedList

def Repr (nodes : Nodes) : Option Nat → BlockTree → Prop
  | p, .nil => p = none
  | p, .node l v r =>
    p = some v.1 ∧ (nodes v.1).block = v.2 ∧ Repr nodes (nodes v.1).left l ∧
      Repr nodes (nodes v.1).right r

/-- The nodes outside `ids` are the same in both stores. -/
def SameOff (nodes nodes' : Nodes) (ids : List Nat) : Prop :=
  ∀ i, i ∉ ids → nodes' i = nodes i

/-- The node `i` is met below the pointer `p`. -/
inductive Below (nodes : Nodes) : Option Nat → Nat → Prop where
  | here (i : Nat) : Below nodes (some i) i
  | left {i j : Nat} (h : Below nodes (nodes i).left j) : Below nodes (some i) j
  | right {i j : Nat} (h : Below nodes (nodes i).right j) : Below nodes (some i) j

section Frames

variable {nodes nodes' nodes'' : Nodes} {p q : Option Nat} {t l r : BlockTree} {i : Nat}
  {v : Nat × Header} {ids ids' : List Nat}

theorem SameOff.refl : SameOff nodes nodes ids := fun _ _ => rfl

theorem SameOff.trans (h : SameOff nodes nodes' ids) (h' : SameOff nodes' nodes'' ids) :
    SameOff nodes nodes'' ids :=
  fun i hi => (h' i hi).trans (h i hi)

theorem SameOff.mono (h : SameOff nodes nodes' ids) (hsub : ids ⊆ ids') :
    SameOff nodes nodes' ids' :=
  fun i hi => h i fun hin => hi (hsub hin)

theorem sameOff_update (x : TreeNode) (hi : i ∈ ids) :
    SameOff nodes (Function.update nodes i x) ids :=
  fun j hj => Function.update_of_ne (fun he : j = i => hj (he ▸ hi)) _ _

@[simp] theorem ids_nil : BlockTree.ids (.nil : BlockTree) = [] := rfl

@[simp] theorem ids_node :
    BlockTree.ids (.node l v r) = BlockTree.ids l ++ v.1 :: BlockTree.ids r := by
  simp [BlockTree.ids]

theorem ids_left_subset : BlockTree.ids l ⊆ BlockTree.ids (.node l v r) := by
  rw [ids_node]
  exact List.subset_append_left _ _

theorem ids_right_subset : BlockTree.ids r ⊆ BlockTree.ids (.node l v r) := by
  rw [ids_node]
  exact List.subset_append_of_subset_right _ (List.subset_cons_self _ _)

theorem ids_children_subset : BlockTree.ids l ++ BlockTree.ids r ⊆ BlockTree.ids (.node l v r) :=
  List.append_subset_of_subset_of_subset ids_left_subset ids_right_subset

theorem length_ids : t.ids.length = t.size := by
  rw [BlockTree.ids, List.length_map, NodeTree.length_inorder]

theorem Repr.congr (h : Repr nodes p t) (same : ∀ i, i ∈ t.ids → nodes' i = nodes i) :
    Repr nodes' p t := by
  induction t generalizing p with
  | nil => exact h
  | node l v r ihl ihr =>
    obtain ⟨hp, hb, hl, hr⟩ := h
    have hv := same v.1 (by simp)
    refine ⟨hp, by rw [hv, hb], ?_, ?_⟩
    · rw [hv]
      exact ihl hl fun i hi => same i (by simp [hi])
    · rw [hv]
      exact ihr hr fun i hi => same i (by simp [hi])

/-- A change elsewhere does not touch the tree. -/
theorem Repr.frame (h : Repr nodes p t) (same : SameOff nodes nodes' ids)
    (hdisj : List.Disjoint t.ids ids) : Repr nodes' p t :=
  h.congr fun i hi => same i (hdisj hi)

theorem Repr.update_of_not_mem (h : Repr nodes p t) (hi : i ∉ t.ids) (x : TreeNode) :
    Repr (Function.update nodes i x) p t :=
  h.congr fun j hj => Function.update_of_ne (fun he : j = i => hi (he ▸ hj)) _ _

theorem Repr.block_of_mem (h : Repr nodes p t) (hv : v ∈ t.inorder) :
    (nodes v.1).block = v.2 := by
  induction t generalizing p with
  | nil => cases hv
  | node l w r ihl ihr =>
    obtain ⟨-, hb, hl, hr⟩ := h
    simp only [NodeTree.inorder_node, List.mem_append, List.mem_cons] at hv
    rcases hv with hv | rfl | hv
    · exact ihl hl hv
    · exact hb
    · exact ihr hr hv

theorem Repr.root_eq (h : Repr nodes p t) : p = none ↔ t = .nil := by
  cases t with
  | nil => simpa [Repr] using h
  | node l v r => simp [h.1]

theorem below_iff (h : Repr nodes p t) (i : Nat) : Below nodes p i ↔ i ∈ t.ids := by
  induction t generalizing p with
  | nil =>
    cases h
    exact ⟨fun hb => (nomatch hb), fun hi => (nomatch hi)⟩
  | node l v r ihl ihr =>
    obtain ⟨rfl, -, hl, hr⟩ := h
    rw [ids_node, List.mem_append, List.mem_cons, ← ihl hl, ← ihr hr]
    constructor
    · intro hb
      cases hb with
      | here => exact Or.inr (Or.inl rfl)
      | left hb => exact Or.inl hb
      | right hb => exact Or.inr (Or.inr hb)
    · rintro (hb | rfl | hb)
      · exact .left hb
      · exact .here _
      · exact .right hb

theorem repr_leaf {b : Header} (h : nodes i = ⟨b, none, none⟩) :
    Repr nodes (some i) (NodeTree.leaf (i, b)) := by
  refine ⟨rfl, ?_, ?_, ?_⟩ <;> simp [h, Repr]

/-- The left child of a node is replaced. -/
theorem repr_setLeft (hb : (nodes i).block = v.2) (hi : i = v.1) (hl : Repr nodes q l)
    (hr : Repr nodes (nodes i).right r) (hil : i ∉ BlockTree.ids l) (hir : i ∉ BlockTree.ids r) :
    Repr (setLeft nodes i q) (some i) (.node l v r) := by
  subst hi
  refine ⟨rfl, ?_, ?_, ?_⟩
  · simp [setLeft, hb]
  · simp only [setLeft, Function.update_self]
    exact hl.update_of_not_mem hil _
  · simp only [setLeft, Function.update_self]
    exact hr.update_of_not_mem hir _

theorem repr_setRight (hb : (nodes i).block = v.2) (hi : i = v.1) (hr : Repr nodes q r)
    (hl : Repr nodes (nodes i).left l) (hil : i ∉ BlockTree.ids l) (hir : i ∉ BlockTree.ids r) :
    Repr (setRight nodes i q) (some i) (.node l v r) := by
  subst hi
  refine ⟨rfl, ?_, ?_, ?_⟩
  · simp [setRight, hb]
  · simp only [setRight, Function.update_self]
    exact hl.update_of_not_mem hil _
  · simp only [setRight, Function.update_self]
    exact hr.update_of_not_mem hir _

/-- The identities of a node's subtrees and its own, all different. -/
theorem nodup_ids_node :
    (BlockTree.ids (.node l v r)).Nodup ↔
      (BlockTree.ids l).Nodup ∧ (BlockTree.ids r).Nodup ∧ v.1 ∉ BlockTree.ids l ∧
        v.1 ∉ BlockTree.ids r ∧ List.Disjoint (BlockTree.ids l) (BlockTree.ids r) := by
  rw [ids_node, List.nodup_append', List.nodup_cons, List.disjoint_cons_right]
  tauto

end Frames

theorem ids_split_fst (a : Nat) (t : BlockTree) :
    BlockTree.ids (t.split nodeAddr a).1 ⊆ t.ids := by
  rw [← ids_split a t]
  exact List.subset_append_left _ _

theorem ids_split_snd (a : Nat) (t : BlockTree) :
    BlockTree.ids (t.split nodeAddr a).2 ⊆ t.ids := by
  rw [← ids_split a t]
  exact List.subset_append_right _ _

section Search

variable {nodes : Nodes} {p : Option Nat} {t : BlockTree} {fuel : Nat}

theorem searchBst_repr (h : Repr nodes p t) (hf : t.size < fuel) (a : Nat) :
    searchBst fuel nodes p a = some ((t.search nodeAddr a).map Prod.fst) := by
  induction t generalizing p fuel with
  | nil =>
    cases h
    cases fuel with
    | zero => simp [NodeTree.size] at hf
    | succ fuel => rfl
  | node l v r ihl ihr =>
    obtain ⟨rfl, hb, hl, hr⟩ := h
    cases fuel with
    | zero => simp at hf
    | succ fuel =>
      simp only [NodeTree.size] at hf
      rw [searchBst, hb, ihl hl (by omega), ihr hr (by omega)]
      rcases lt_trichotomy a v.2.addr with hlt | heq | hgt
      · rw [if_neg hlt.ne, if_pos hlt, NodeTree.search_of_lt nodeAddr hlt]
      · rw [if_pos heq, NodeTree.search_of_eq nodeAddr heq]
        rfl
      · rw [if_neg hgt.ne', if_neg hgt.asymm, NodeTree.search_of_gt nodeAddr hgt]

theorem findRightmost_repr (h : Repr nodes p t) (hf : t.size < fuel) :
    findRightmost fuel nodes p = some (t.rightmost.map Prod.fst) := by
  induction t generalizing p fuel with
  | nil =>
    cases h
    cases fuel with
    | zero => simp [NodeTree.size] at hf
    | succ fuel => rfl
  | node l v r _ ihr =>
    obtain ⟨rfl, hb, -, hr⟩ := h
    cases fuel with
    | zero => simp at hf
    | succ fuel =>
      simp only [NodeTree.size] at hf
      have ih := ihr hr (by omega : r.size < fuel)
      rw [findRightmost, NodeTree.rightmost]
      cases hp : (nodes v.1).right with
      | none =>
        rw [hp] at hr
        rw [hr.root_eq.mp rfl]
        rfl
      | some j =>
        rw [hp] at ih
        simp only [ih]
        cases hm : r.rightmost with
        | none =>
          rw [NodeTree.rightmost_eq_last, List.getLast?_eq_none_iff, NodeTree.inorder_eq_nil] at hm
          rw [hm] at hr
          rw [hp] at hr
          cases hr
        | some m => rfl

theorem findLeftmost_repr (h : Repr nodes p t) (hf : t.size < fuel) :
    findLeftmost fuel nodes p = some (t.leftmost.map Prod.fst) := by
  induction t generalizing p fuel with
  | nil =>
    cases h
    cases fuel with
    | zero => simp [NodeTree.size] at hf
    | succ fuel => rfl
  | node l v r ihl _ =>
    obtain ⟨rfl, hb, hl, -⟩ := h
    cases fuel with
    | zero => simp at hf
    | succ fuel =>
      simp only [NodeTree.size] at hf
      have ih := ihl hl (by omega : l.size < fuel)
      rw [findLeftmost, NodeTree.leftmost]
      cases hp : (nodes v.1).left with
      | none =>
        rw [hp] at hl
        rw [hl.root_eq.mp rfl]
        rfl
      | some j =>
        rw [hp] at ih
        simp only [ih]
        cases hm : l.leftmost with
        | none =>
          rw [NodeTree.leftmost_eq_head, List.head?_eq_none_iff, NodeTree.inorder_eq_nil] at hm
          rw [hm] at hl
          rw [hp] at hl
          cases hl
        | some m => rfl

end Search

section Change

variable {nodes : Nodes} {p q : Option Nat} {t t' : BlockTree} {fuel : Nat}

theorem splitTreap_repr (h : Repr nodes p t) (hn : t.ids.Nodup) (hf : t.size < fuel) (a : Nat) :
    ∃ nodes' pl pr, splitTreap fuel nodes p a = some (nodes', pl, pr) ∧
      Repr nodes' pl (t.split nodeAddr a).1 ∧ Repr nodes' pr (t.split nodeAddr a).2 ∧
      SameOff nodes nodes' t.ids := by
  induction t generalizing p fuel with
  | nil =>
    cases h
    obtain ⟨fuel, rfl⟩ := Nat.exists_eq_add_one_of_ne_zero (Nat.ne_of_gt (Nat.zero_lt_of_lt hf))
    exact ⟨nodes, none, none, rfl, rfl, rfl, SameOff.refl⟩
  | node l v r ihl ihr =>
    obtain ⟨rfl, hb, hl, hr⟩ := h
    obtain ⟨hnl, hnr, hvl, hvr, hdisj⟩ := nodup_ids_node.mp hn
    obtain ⟨fuel, rfl⟩ := Nat.exists_eq_add_one_of_ne_zero (Nat.ne_of_gt (Nat.zero_lt_of_lt hf))
    simp only [NodeTree.size] at hf
    rw [splitTreap, hb]
    by_cases hlt : a < v.2.addr
    · obtain ⟨nodes', pl, pr, hrun, hpl, hpr, hsame⟩ := ihl hl hnl (by omega : l.size < fuel)
      have hv := hsame v.1 hvl
      have hvl₁ : v.1 ∉ BlockTree.ids (l.split nodeAddr a).1 :=
        fun hin => hvl (ids_split_fst a l hin)
      have hvl₂ : v.1 ∉ BlockTree.ids (l.split nodeAddr a).2 :=
        fun hin => hvl (ids_split_snd a l hin)
      rw [if_pos hlt, hrun, NodeTree.split_of_lt nodeAddr hlt]
      refine ⟨_, _, _, rfl, hpl.update_of_not_mem hvl₁ _, ?_, ?_⟩
      · apply repr_setLeft (by rw [hv, hb]) rfl hpr _ hvl₂ hvr
        rw [hv]
        exact hr.frame hsame (List.disjoint_symm hdisj)
      · refine (hsame.mono (by simp)).trans (sameOff_update _ ?_)
        simp
    · obtain ⟨nodes', pl, pr, hrun, hpl, hpr, hsame⟩ := ihr hr hnr (by omega : r.size < fuel)
      have hv := hsame v.1 hvr
      have hvr₁ : v.1 ∉ BlockTree.ids (r.split nodeAddr a).1 :=
        fun hin => hvr (ids_split_fst a r hin)
      have hvr₂ : v.1 ∉ BlockTree.ids (r.split nodeAddr a).2 :=
        fun hin => hvr (ids_split_snd a r hin)
      rw [if_neg hlt, hrun, NodeTree.split_of_not_lt nodeAddr hlt]
      refine ⟨_, _, _, rfl, ?_, hpr.update_of_not_mem hvr₂ _, ?_⟩
      · apply repr_setRight (by rw [hv, hb]) rfl hpl _ hvl hvr₁
        rw [hv]
        exact hl.frame hsame hdisj
      · refine (hsame.mono fun i hi => ?_).trans (sameOff_update _ ?_)
        · simp [hi]
        · simp

theorem mergeTreap_repr (h : Repr nodes p t) (h' : Repr nodes q t') (hn : (t.ids ++ t'.ids).Nodup)
    (hf : t.size + t'.size < fuel) :
    ∃ nodes' p', mergeTreap fuel nodes p q = some (nodes', p') ∧
      Repr nodes' p' (NodeTree.merge nodeSize t t') ∧ SameOff nodes nodes' (t.ids ++ t'.ids) := by
  induction t, t' using NodeTree.merge.induct nodeSize generalizing p q fuel with
  | case1 t =>
    cases h
    obtain ⟨fuel, rfl⟩ := Nat.exists_eq_add_one_of_ne_zero (Nat.ne_of_gt (Nat.zero_lt_of_lt hf))
    rw [NodeTree.merge]
    exact ⟨nodes, q, rfl, h', SameOff.refl⟩
  | case2 t hne =>
    cases h'
    obtain ⟨fuel, rfl⟩ := Nat.exists_eq_add_one_of_ne_zero (Nat.ne_of_gt (Nat.zero_lt_of_lt hf))
    cases t with
    | nil => exact absurd rfl hne
    | node l v r =>
      obtain ⟨rfl, hrest⟩ := h
      rw [NodeTree.merge_nil]
      exact ⟨nodes, some v.1, rfl, ⟨rfl, hrest⟩, SameOff.refl⟩
  | case3 l v r l' v' r' hlt ih =>
    obtain ⟨rfl, hb, hl, hr⟩ := h
    obtain ⟨rfl, hb', hl', hr'⟩ := h'
    obtain ⟨fuel, rfl⟩ := Nat.exists_eq_add_one_of_ne_zero (Nat.ne_of_gt (Nat.zero_lt_of_lt hf))
    obtain ⟨hnt, hnt', hdisj⟩ := List.nodup_append'.mp hn
    obtain ⟨hnl, hnr, hvl, hvr, hlr⟩ := nodup_ids_node.mp hnt
    rw [ids_node, List.disjoint_append_left, List.disjoint_cons_left] at hdisj
    obtain ⟨hdl, hdv, hdr⟩ := hdisj
    have hsize : r.size + (NodeTree.node l' v' r').size < fuel := by
      simp only [NodeTree.size] at hf ⊢
      omega
    obtain ⟨nodes', p', hrun, hp', hsame⟩ := ih hr (q := some v'.1) ⟨rfl, hb', hl', hr'⟩
      (List.nodup_append'.mpr ⟨hnr, hnt', hdr⟩) hsize
    have hv : nodes' v.1 = nodes v.1 := hsame v.1 (by
      rw [List.mem_append, not_or]
      exact ⟨hvr, hdv⟩)
    rw [mergeTreap, NodeTree.merge_of_lt nodeSize hlt, hb, hb',
      if_pos (show v'.2.size < v.2.size from hlt), hrun]
    refine ⟨_, _, rfl, ?_, ?_⟩
    · apply repr_setRight (by rw [hv, hb]) rfl hp' _ hvl
      · rw [ids_merge, List.mem_append, not_or]
        exact ⟨hvr, hdv⟩
      · rw [hv]
        exact hl.frame hsame (List.disjoint_append_right.mpr ⟨hlr, hdl⟩)
    · refine (hsame.mono ?_).trans (sameOff_update _ ?_)
      · exact List.append_subset_of_subset_of_subset
          (List.subset_append_of_subset_left _ ids_right_subset) (List.subset_append_right _ _)
      · simp
  | case4 l v r l' v' r' hlt ih =>
    obtain ⟨rfl, hb, hl, hr⟩ := h
    obtain ⟨rfl, hb', hl', hr'⟩ := h'
    obtain ⟨fuel, rfl⟩ := Nat.exists_eq_add_one_of_ne_zero (Nat.ne_of_gt (Nat.zero_lt_of_lt hf))
    obtain ⟨hnt, hnt', hdisj⟩ := List.nodup_append'.mp hn
    obtain ⟨hnl', hnr', hvl', hvr', hlr'⟩ := nodup_ids_node.mp hnt'
    rw [ids_node (l := l'), List.disjoint_append_right, List.disjoint_cons_right] at hdisj
    obtain ⟨hdl, hdv, hdr⟩ := hdisj
    have hsize : (NodeTree.node l v r).size + l'.size < fuel := by
      simp only [NodeTree.size] at hf ⊢
      omega
    obtain ⟨nodes', p', hrun, hp', hsame⟩ := ih (p := some v.1) ⟨rfl, hb, hl, hr⟩ hl'
      (List.nodup_append'.mpr ⟨hnt, hnl', hdl⟩) hsize
    have hv : nodes' v'.1 = nodes v'.1 := hsame v'.1 (by
      rw [List.mem_append, not_or]
      exact ⟨hdv, hvl'⟩)
    rw [mergeTreap, NodeTree.merge_of_not_lt nodeSize hlt, hb, hb',
      if_neg (show ¬ v'.2.size < v.2.size from hlt), hrun]
    refine ⟨_, _, rfl, ?_, ?_⟩
    · apply repr_setLeft (by rw [hv, hb']) rfl hp' _ _ hvr'
      · rw [hv]
        exact hr'.frame hsame
          (List.disjoint_append_right.mpr ⟨List.disjoint_symm hdr, List.disjoint_symm hlr'⟩)
      · rw [ids_merge, List.mem_append, not_or]
        exact ⟨hdv, hvl'⟩
    · refine (hsame.mono ?_).trans (sameOff_update _ ?_)
      · exact List.append_subset_of_subset_of_subset (List.subset_append_left _ _)
          (List.subset_append_of_subset_right _ ids_left_subset)
      · simp

theorem insertBst_repr (h : Repr nodes p t) {x : Nat × Header}
    (hx : nodes x.1 = ⟨x.2, none, none⟩) (hn : (x.1 :: t.ids).Nodup) (hf : t.size < fuel) :
    ∃ nodes' p', insertBst fuel nodes p x.1 = some (nodes', p') ∧
      Repr nodes' p' (t.insert nodeAddr x) ∧ SameOff nodes nodes' t.ids := by
  induction t generalizing p fuel with
  | nil =>
    cases h
    obtain ⟨fuel, rfl⟩ := Nat.exists_eq_add_one_of_ne_zero (Nat.ne_of_gt (Nat.zero_lt_of_lt hf))
    exact ⟨nodes, some x.1, rfl, repr_leaf hx, SameOff.refl⟩
  | node l v r ihl ihr =>
    obtain ⟨rfl, hb, hl, hr⟩ := h
    obtain ⟨hxt, hnt⟩ := List.nodup_cons.mp hn
    obtain ⟨hnl, hnr, hvl, hvr, hdisj⟩ := nodup_ids_node.mp hnt
    simp only [ids_node, List.mem_append, List.mem_cons, not_or] at hxt
    obtain ⟨hxl, hxv, hxr⟩ := hxt
    obtain ⟨fuel, rfl⟩ := Nat.exists_eq_add_one_of_ne_zero (Nat.ne_of_gt (Nat.zero_lt_of_lt hf))
    simp only [NodeTree.size] at hf
    have hmem (s : BlockTree) (hs : v.1 ∉ s.ids) :
        v.1 ∉ BlockTree.ids (s.insert nodeAddr x) := by
      have hperm := (NodeTree.inorder_insert_perm nodeAddr x s).map Prod.fst
      rw [BlockTree.ids, hperm.mem_iff, List.map_cons, List.mem_cons, not_or]
      exact ⟨fun he => hxv he.symm, hs⟩
    rw [insertBst, hb, hx]
    by_cases hlt : x.2.addr < v.2.addr
    · obtain ⟨nodes', p', hrun, hp', hsame⟩ :=
        ihl hl (List.nodup_cons.mpr ⟨hxl, hnl⟩) (by omega : l.size < fuel)
      have hv := hsame v.1 hvl
      rw [if_pos hlt, hrun, NodeTree.insert_of_lt nodeAddr hlt]
      refine ⟨_, _, rfl, ?_, ?_⟩
      · apply repr_setLeft (by rw [hv, hb]) rfl hp' _ (hmem l hvl) hvr
        rw [hv]
        exact hr.frame hsame (List.disjoint_symm hdisj)
      · refine (hsame.mono (by simp)).trans (sameOff_update _ ?_)
        simp
    · obtain ⟨nodes', p', hrun, hp', hsame⟩ :=
        ihr hr (List.nodup_cons.mpr ⟨hxr, hnr⟩) (by omega : r.size < fuel)
      have hv := hsame v.1 hvr
      rw [if_neg hlt, hrun, NodeTree.insert_of_not_lt nodeAddr hlt]
      refine ⟨_, _, rfl, ?_, ?_⟩
      · apply repr_setRight (by rw [hv, hb]) rfl hp' _ hvl (hmem r hvr)
        rw [hv]
        exact hl.frame hsame hdisj
      · refine (hsame.mono fun i hi => ?_).trans (sameOff_update _ ?_)
        · simp [hi]
        · simp

/-- The successor has no left child. When it is not the root of the right subtree, it is the
left child of its parent, and its right child takes its place. -/
theorem findMinNode_repr {l r : BlockTree} {v : Nat × Header} (parent : Nat)
    (h : Repr nodes p (.node l v r)) (hn : (BlockTree.ids (.node l v r)).Nodup)
    (hf : (NodeTree.node l v r).size ≤ fuel) :
    ∃ q m, (NodeTree.node l v r).leftmost = some m ∧
      findMinNode fuel nodes parent v.1 = some (q, m.1) ∧ (nodes m.1).left = none ∧
      (l = .nil → q = parent ∧ m = v) ∧
      (l ≠ .nil → q ∈ BlockTree.ids (.node l v r) ∧ q ≠ m.1 ∧ (nodes q).left = some m.1 ∧
        Repr (setLeft (detach nodes m.1) q (nodes m.1).right) p
          (NodeTree.node l v r).removeMin) := by
  induction l generalizing p parent fuel v r with
  | nil =>
    obtain ⟨rfl, hb, hl, hr⟩ := h
    obtain ⟨fuel, rfl⟩ := Nat.exists_eq_add_one_of_ne_zero
      (Nat.ne_of_gt (Nat.lt_of_lt_of_le (Nat.succ_pos _) hf))
    refine ⟨parent, v, rfl, ?_, hl, fun _ => ⟨rfl, rfl⟩, fun hne => absurd rfl hne⟩
    rw [findMinNode, show (nodes v.1).left = none from hl]
  | node ll lv lr ihl _ =>
    obtain ⟨rfl, hb, hl, hr⟩ := h
    obtain ⟨hnl, hnr, hvl, hvr, hdisj⟩ := nodup_ids_node.mp hn
    obtain ⟨fuel, rfl⟩ := Nat.exists_eq_add_one_of_ne_zero
      (Nat.ne_of_gt (Nat.lt_of_lt_of_le (Nat.succ_pos _) hf))
    have hsize : (NodeTree.node ll lv lr).size ≤ fuel := by
      simp only [NodeTree.size] at hf ⊢
      omega
    obtain ⟨q, m, hmin, hrun, hleft, hnil, hcons⟩ := ihl v.1 hl hnl hsize
    have hlv : (nodes v.1).left = some lv.1 := hl.1
    have hml : m.1 ∈ BlockTree.ids (NodeTree.node ll lv lr) := by
      rw [NodeTree.leftmost_eq_head] at hmin
      exact List.mem_map_of_mem (List.mem_of_mem_head? hmin)
    have hvm : v.1 ≠ m.1 := fun he => hvl (he ▸ hml)
    have hmr : m.1 ∉ BlockTree.ids r := hdisj hml
    refine ⟨q, m, ?_, ?_, hleft, by simp, fun _ => ?_⟩
    · rw [NodeTree.leftmost, hmin, Option.some_or]
    · rw [findMinNode, hlv]
      exact hrun
    · by_cases hll : ll = .nil
      · obtain ⟨rfl, rfl⟩ := hnil hll
        subst hll
        refine ⟨by simp, hvm, hlv, ?_⟩
        have hd : detach nodes m.1 v.1 = nodes v.1 := Function.update_of_ne hvm _ _
        have hnm := nodup_ids_node.mp hnl
        refine repr_setLeft (by rw [hd, hb]) rfl ?_ ?_
          (fun hin => hvl (by simp [show v.1 ∈ BlockTree.ids lr from hin])) hvr
        · exact hl.2.2.2.update_of_not_mem hnm.2.2.2.1 _
        · rw [hd]
          exact hr.update_of_not_mem hmr _
      · obtain ⟨hq, hqm, hql, hrep⟩ := hcons hll
        have hvq : v.1 ≠ q := fun he => hvl (he ▸ hq)
        refine ⟨by simp only [ids_node (l := NodeTree.node ll lv lr), List.mem_append, hq, true_or],
          hqm, hql, rfl, ?_, ?_, ?_⟩
        · simp only [setLeft, detach, Function.update_of_ne hvq, Function.update_of_ne hvm, hb]
        · simp only [setLeft, detach, Function.update_of_ne hvq, Function.update_of_ne hvm]
          exact hrep
        · simp only [setLeft, detach, Function.update_of_ne hvq, Function.update_of_ne hvm]
          exact (hr.update_of_not_mem hmr _).update_of_not_mem (hdisj hq) _

theorem ids_remove_subset (a : Nat) (t : BlockTree) :
    BlockTree.ids (t.remove Header.addr a).1 ⊆ t.ids := by
  intro i hi
  have hmem := (ids_remove [] a t).mem_iff.mp (List.mem_append_left _ hi)
  rwa [List.append_nil] at hmem

theorem removed_mem_ids {a : Nat} {x : Nat × Header} (h : (t.remove Header.addr a).2 = some x) :
    x.1 ∈ t.ids := by
  have hperm := ids_remove [] a t
  rw [h] at hperm
  have hmem := hperm.mem_iff.mp (List.mem_append_right _ List.mem_cons_self)
  rwa [List.append_nil] at hmem

theorem ids_removeMin_subset (t : BlockTree) : BlockTree.ids t.removeMin ⊆ t.ids := by
  intro i hi
  rw [BlockTree.ids, NodeTree.inorder_removeMin] at hi
  exact ((List.tail_sublist _).map _).mem hi

/-- Without a left child the node is cut off and its right child takes its place. -/
theorem removeBst_leftless {i : Nat} (h : (nodes i).left = none) (hf : 0 < fuel) :
    removeBst fuel nodes (some i) (nodes i).block.addr =
      some (detach nodes i, (nodes i).right, some i) := by
  obtain ⟨fuel, rfl⟩ := Nat.exists_eq_add_one_of_ne_zero (Nat.ne_of_gt hf)
  rw [removeBst, if_neg (lt_irrefl _), if_neg (lt_irrefl _), h]

section Splice

variable {l r : BlockTree} {v m q : Nat} {b : Header} {p : Option Nat}

/-- Apart from the node that takes the block, a splice is the cut below it. -/
theorem splice_of_ne (hqm : q ≠ m) (hqv : q ≠ v) (hmv : m ≠ v) {i : Nat} (hi : i ≠ v) :
    setLeft (detach (setBlock nodes v b) m) q p i = setLeft (detach nodes m) q p i := by
  by_cases hiq : i = q
  · subst hiq
    simp only [setLeft, Function.update_self, detach, Function.update_of_ne hqm, setBlock,
      Function.update_of_ne hqv]
  · simp only [setLeft, Function.update_of_ne hiq]
    by_cases him : i = m
    · subst him
      simp only [detach, Function.update_self, setBlock, Function.update_of_ne hmv]
    · simp only [detach, Function.update_of_ne him, setBlock, Function.update_of_ne hi]

/-- The node that takes the block keeps its links. -/
theorem splice_self (hqv : q ≠ v) (hmv : m ≠ v) :
    setLeft (detach (setBlock nodes v b) m) q p v = { nodes v with block := b } := by
  simp only [setLeft, Function.update_of_ne hqv.symm, detach, Function.update_of_ne hmv.symm,
    setBlock, Function.update_self]

/-- The smallest node is the right child itself. -/
theorem splice_child_repr (hl : Repr nodes (nodes v).left l) (hr : Repr nodes p r) (hmv : m ≠ v)
    (hml : m ∉ l.ids) (hmr : m ∉ r.ids) (hvl : v ∉ l.ids) (hvr : v ∉ r.ids) :
    Repr (setRight (detach (setBlock nodes v b) m) v p) (some v) (.node l (v, b) r) := by
  have hself : detach (setBlock nodes v b) m v = { nodes v with block := b } := by
    simp only [detach, Function.update_of_ne hmv.symm, setBlock, Function.update_self]
  refine repr_setRight (v := (v, b)) (by rw [hself]) rfl ?_ ?_ hvl hvr
  · exact (hr.update_of_not_mem hvr _).update_of_not_mem hmr _
  · rw [hself]
    exact (hl.update_of_not_mem hvl _).update_of_not_mem hml _

/-- The smallest node is the left child of a node `q` below the right child. -/
theorem splice_below_repr (hl : Repr nodes (nodes v).left l)
    (hr : Repr (setLeft (detach nodes m) q p) (nodes v).right r) (hqm : q ≠ m) (hqv : q ≠ v)
    (hmv : m ≠ v) (hql : q ∉ l.ids) (hml : m ∉ l.ids) (hvl : v ∉ l.ids) (hvr : v ∉ r.ids) :
    Repr (setLeft (detach (setBlock nodes v b) m) q p) (some v) (.node l (v, b) r) := by
  refine ⟨rfl, ?_, ?_, ?_⟩
  · rw [splice_self hqv hmv]
  · rw [splice_self hqv hmv]
    exact ((hl.update_of_not_mem hvl _).update_of_not_mem hml _).update_of_not_mem hql _
  · rw [splice_self hqv hmv]
    exact hr.congr fun i hi => splice_of_ne hqm hqv hmv fun he => hvr (he ▸ hi)

end Splice

/-- The end of `remove_bst` for a node with two children. -/
theorem splice_repr {l rl rr : BlockTree} {v rv : Nat × Header}
    (hl : Repr nodes (nodes v.1).left l) (hr : Repr nodes (nodes v.1).right (.node rl rv rr))
    (hlne : l ≠ .nil) (hn : (BlockTree.ids (.node l v (.node rl rv rr))).Nodup)
    (hf : (NodeTree.node rl rv rr).size < fuel) :
    ∃ m nodes', (NodeTree.node rl rv rr).leftmost = some m ∧
      ((findMinNode fuel nodes v.1 rv.1).bind fun q =>
        let nodes := setBlock nodes v.1 (nodes q.2).block
        (removeBst fuel nodes (some q.2) (nodes q.2).block.addr).map fun p =>
          if (nodes q.1).left = some q.2 then (setLeft p.1 q.1 p.2.1, some v.1, p.2.2)
          else (setRight p.1 q.1 p.2.1, some v.1, p.2.2)) = some (nodes', some v.1, some m.1) ∧
      Repr nodes' (some v.1) (.node l (v.1, m.2) (NodeTree.node rl rv rr).removeMin) ∧
      SameOff nodes nodes' (v.1 :: BlockTree.ids (.node rl rv rr)) ∧
      nodes' m.1 = ⟨m.2, none, none⟩ := by
  obtain ⟨hnl, hnr, hvl, hvr, hdisj⟩ := nodup_ids_node.mp hn
  obtain ⟨q, m, hmin, hrun, hleft, hnil, hcons⟩ := findMinNode_repr v.1 hr hnr hf.le
  have hm : m ∈ (NodeTree.node rl rv rr).inorder := by
    rw [NodeTree.leftmost_eq_head] at hmin
    exact List.mem_of_mem_head? hmin
  have hmr : m.1 ∈ BlockTree.ids (NodeTree.node rl rv rr) := List.mem_map_of_mem hm
  have hvm : m.1 ≠ v.1 := fun he => hvr (he ▸ hmr)
  have hml : m.1 ∉ l.ids := fun hin => hdisj hin hmr
  have hmb : (nodes m.1).block = m.2 := hr.block_of_mem hm
  have hset : setBlock nodes v.1 (nodes m.1).block m.1 = nodes m.1 :=
    Function.update_of_ne hvm _ _
  have hleft' : (setBlock nodes v.1 (nodes m.1).block m.1).left = none := by rw [hset, hleft]
  have hcut := removeBst_leftless hleft' (Nat.zero_lt_of_lt hf)
  rw [hset] at hcut
  rw [hrun]
  simp only [Option.bind_some, hset, hcut, Option.map_some]
  by_cases hrl : rl = .nil
  · obtain ⟨rfl, rfl⟩ := hnil hrl
    subst hrl
    have hne : (setBlock nodes v.1 (nodes m.1).block v.1).left ≠ some m.1 := by
      simp only [setBlock, Function.update_self]
      intro he
      cases l with
      | nil => exact hlne rfl
      | node ll lv lr =>
        rw [hl.1, Option.some.injEq] at he
        exact hml (by simp [← he])
    simp only [if_neg hne]
    have hrr : m.1 ∉ rr.ids := (nodup_ids_node.mp hnr).2.2.2.1
    have hvrr : v.1 ∉ rr.ids := fun hin => hvr (by simp [hin])
    refine ⟨m, _, hmin, rfl, ?_, ?_, ?_⟩
    · rw [hmb]
      exact splice_child_repr hl hr.2.2.2 hvm hml hrr hvl hvrr
    · refine ((sameOff_update _ ?_).trans (sameOff_update _ ?_)).trans (sameOff_update _ ?_)
      · simp
      · simp
      · simp
    · simp only [setRight, Function.update_of_ne hvm, detach, Function.update_self]
      rw [hset, hmb]
  · obtain ⟨hq, hqm, hql, hrep⟩ := hcons hrl
    have hqv : q ≠ v.1 := fun he => hvr (he ▸ hq)
    have hqe : (setBlock nodes v.1 (nodes m.1).block q).left = some m.1 := by
      rw [setBlock, Function.update_of_ne hqv, hql]
    simp only [if_pos hqe]
    refine ⟨m, _, hmin, rfl, ?_, ?_, ?_⟩
    · rw [hmb]
      exact splice_below_repr hl hrep hqm hqv hvm (fun hin => hdisj hin hq) hml hvl
        fun hin => hvr (ids_removeMin_subset _ hin)
    · refine ((sameOff_update _ ?_).trans (sameOff_update _ ?_)).trans (sameOff_update _ ?_)
      · simp
      · exact List.mem_cons_of_mem _ hmr
      · exact List.mem_cons_of_mem _ hq
    · simp only [setLeft, Function.update_of_ne hqm.symm, detach, Function.update_self]
      rw [hset, hmb]

theorem detach_self (i : Nat) : detach nodes i i = ⟨(nodes i).block, none, none⟩ := by
  rw [detach, Function.update_self]

theorem removeBst_repr (h : Repr nodes p t) (hn : t.ids.Nodup) (hf : t.size < fuel) (a : Nat) :
    ∃ nodes' p', removeBst fuel nodes p a =
        some (nodes', p', (t.remove Header.addr a).2.map Prod.fst) ∧
      Repr nodes' p' (t.remove Header.addr a).1 ∧ SameOff nodes nodes' t.ids ∧
      ∀ x, (t.remove Header.addr a).2 = some x → nodes' x.1 = ⟨x.2, none, none⟩ := by
  induction t generalizing p fuel with
  | nil =>
    cases h
    obtain ⟨fuel, rfl⟩ := Nat.exists_eq_add_one_of_ne_zero (Nat.ne_of_gt (Nat.zero_lt_of_lt hf))
    exact ⟨nodes, none, rfl, rfl, SameOff.refl, by simp [NodeTree.remove]⟩
  | node l v r ihl ihr =>
    obtain ⟨rfl, hb, hl, hr⟩ := h
    obtain ⟨hnl, hnr, hvl, hvr, hdisj⟩ := nodup_ids_node.mp hn
    obtain ⟨fuel, rfl⟩ := Nat.exists_eq_add_one_of_ne_zero (Nat.ne_of_gt (Nat.zero_lt_of_lt hf))
    simp only [NodeTree.size] at hf
    rw [removeBst, hb]
    rcases lt_trichotomy a v.2.addr with hlt | heq | hgt
    · obtain ⟨nodes', p', hrun, hp', hsame, hcut⟩ := ihl hl hnl (by omega : l.size < fuel)
      have hv := hsame v.1 hvl
      rw [if_pos hlt, hrun, NodeTree.remove_of_lt hlt]
      refine ⟨_, _, rfl, ?_, ?_, fun x hx => ?_⟩
      · apply repr_setLeft (by rw [hv, hb]) rfl hp' _
          (fun hin => hvl (ids_remove_subset a l hin)) hvr
        rw [hv]
        exact hr.frame hsame (List.disjoint_symm hdisj)
      · refine (hsame.mono (by simp)).trans (sameOff_update _ ?_)
        simp
      · have hxl : x.1 ∈ BlockTree.ids l := removed_mem_ids hx
        rw [setLeft, Function.update_of_ne (fun he : x.1 = v.1 => hvl (he ▸ hxl))]
        exact hcut x hx
    · rw [if_neg heq.not_lt, if_neg heq.not_gt, NodeTree.remove_of_eq heq]
      rcases NodeTree.removeRoot_cases l v r with ⟨rfl, hroot⟩ | ⟨rfl, hroot⟩ | ⟨m, -, hm, hroot⟩
      · rw [hroot, show (nodes v.1).left = none from hl]
        refine ⟨_, _, rfl, hr.update_of_not_mem hvr _, sameOff_update _ (by simp), fun x hx => ?_⟩
        cases hx
        rw [detach_self, hb]
      · rw [hroot, show (nodes v.1).right = none from hr]
        cases hleft : (nodes v.1).left with
        | none =>
          rw [hleft] at hl
          rw [hl.root_eq.mp rfl]
          refine ⟨_, _, rfl, rfl, sameOff_update _ (by simp), fun x hx => ?_⟩
          cases hx
          rw [detach_self, hb]
        | some i =>
          rw [hleft] at hl
          refine ⟨_, _, rfl, hl.update_of_not_mem hvl _, sameOff_update _ (by simp), fun x hx => ?_⟩
          cases hx
          rw [detach_self, hb]
      · cases r with
        | nil => cases hm
        | node rl rv rr =>
          cases l with
          | nil =>
            rw [NodeTree.removeRoot_nil_left] at hroot
            cases congrArg Prod.snd hroot
            exact absurd (List.mem_map_of_mem (List.mem_of_mem_head?
              ((NodeTree.leftmost_eq_head _).symm.trans hm))) hvr
          | node ll lv lr =>
            have hsize : (NodeTree.node rl rv rr).size < fuel := by
              simp only [NodeTree.size] at hf ⊢
              omega
            obtain ⟨m', nodes', hm', hrun, hrep, hsame, hcut⟩ :=
              splice_repr hl hr (by simp) hn hsize
            cases hm.symm.trans hm'
            rw [show (nodes v.1).left = some lv.1 from hl.1,
              show (nodes v.1).right = some rv.1 from hr.1, hroot]
            refine ⟨nodes', some v.1, hrun, hrep, hsame.mono ?_, fun x hx => ?_⟩
            · rw [ids_node (l := NodeTree.node ll lv lr)]
              exact List.subset_append_right _ _
            · cases hx
              exact hcut
    · obtain ⟨nodes', p', hrun, hp', hsame, hcut⟩ := ihr hr hnr (by omega : r.size < fuel)
      have hv := hsame v.1 hvr
      rw [if_neg hgt.asymm, if_pos hgt, hrun, NodeTree.remove_of_gt hgt]
      refine ⟨_, _, rfl, ?_, ?_, fun x hx => ?_⟩
      · apply repr_setRight (by rw [hv, hb]) rfl hp' _ hvl
          (fun hin => hvr (ids_remove_subset a r hin))
        rw [hv]
        exact hl.frame hsame hdisj
      · refine (hsame.mono fun i hi => ?_).trans (sameOff_update _ ?_)
        · simp [hi]
        · simp
      · have hxr : x.1 ∈ BlockTree.ids r := removed_mem_ids hx
        rw [setRight, Function.update_of_ne (fun he : x.1 = v.1 => hvr (he ▸ hxr))]
        exact hcut x hx

end Change

end GarbageCollector
