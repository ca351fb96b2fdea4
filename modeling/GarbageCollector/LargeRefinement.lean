import GarbageCollector.TreePointers

/-!
# The large allocator does what the trees do

`insert_treap` and `cleanup_bst` on the store of tree nodes, with the list of spare nodes,
against `coalesce` and `cleanup`. No order of the trees is assumed.
-/

namespace GarbageCollector

open BinaryTree LinkedList

/-- The spare nodes from `head` on; their blocks are zero. -/
structure Spare (nodes : Nodes) (head : Option Nat) (l : List Nat) : Prop where
  list : IsList (fun i => (nodes i).right) head l
  zero : ∀ i, i ∈ l → (nodes i).block = ⟨0, 0, false⟩

/-- Both states have the same roots and the same nodes outside `ids`. -/
structure Within (s s' : LargeAllocator) (ids : List Nat) : Prop where
  nodes : SameOff s.nodes s'.nodes ids
  freeRoot : s'.freeRoot = s.freeRoot
  occupiedRoot : s'.occupiedRoot = s.occupiedRoot

/-- A tree `t` at `p`, a node `x` outside it without children, and the spare nodes. -/
structure Around (s : LargeAllocator) (p : Option Nat) (t : BlockTree) (spare : List Nat)
    (x : Nat × Header) : Prop where
  tree : Repr s.nodes p t
  node : s.nodes x.1 = ⟨x.2, none, none⟩
  spares : Spare s.nodes s.treenodeListHead spare
  nodup : (x.1 :: (t.ids ++ spare)).Nodup

section Store

variable {s s' s'' : LargeAllocator} {nodes nodes' : Nodes} {head p q : Option Nat}
  {l ids spare : List Nat} {t r : BlockTree} {x : Nat × Header} {fuel i : Nat}

theorem Spare.frame (h : Spare nodes head l) (same : SameOff nodes nodes' ids)
    (hdisj : List.Disjoint l ids) : Spare nodes' head l := by
  refine ⟨h.list.congr fun i hi => ?_, fun i hi => ?_⟩
  · rw [same i (hdisj hi)]
  · rw [same i (hdisj hi)]
    exact h.zero i hi

theorem Spare.free (h : Spare s.nodes s.treenodeListHead l) (hi : i ∉ l) :
    Spare (freeTreeNode s i).nodes (freeTreeNode s i).treenodeListHead (i :: l) := by
  have hoff : SameOff s.nodes (freeTreeNode s i).nodes [i] := sameOff_update _ (by simp)
  have hframe := h.frame hoff (by simpa using hi)
  refine ⟨⟨rfl, ?_⟩, fun j hj => ?_⟩
  · simp only [freeTreeNode, Function.update_self]
    exact hframe.list
  · rcases List.mem_cons.mp hj with rfl | hj
    · simp only [freeTreeNode, Function.update_self]
    · exact hframe.zero j hj

theorem Within.refl : Within s s ids := ⟨SameOff.refl, rfl, rfl⟩

theorem Within.mono {ids' : List Nat} (h : Within s s' ids) (hsub : ids ⊆ ids') :
    Within s s' ids' :=
  ⟨h.nodes.mono hsub, h.freeRoot, h.occupiedRoot⟩

/-- The neighbour found under `a` leaves the tree and becomes spare; the node takes `merged`. -/
theorem absorb_repr (h : Around s p t spare x) (hf : t.size < fuel) (merged : Header) (a : Nat) :
    ∃ s' p', absorb fuel s p x.1 merged a = some (s', p') ∧
      Around s' p' (t.remove Header.addr a).1 (release spare (t.remove Header.addr a).2)
        (x.1, merged) ∧ Within s s' (x.1 :: t.ids) := by
  obtain ⟨hx, hn⟩ := List.nodup_cons.mp h.nodup
  obtain ⟨hnt, hns, hts⟩ := List.nodup_append'.mp hn
  rw [List.mem_append, not_or] at hx
  have hset : SameOff s.nodes (setBlock s.nodes x.1 merged) [x.1] := sameOff_update _ (by simp)
  have htree : Repr (setBlock s.nodes x.1 merged) p t :=
    h.tree.frame hset (by simpa using hx.1)
  obtain ⟨nodes', p', hrun, hrep, hsame, hcut⟩ := removeBst_repr htree hnt hf a
  have hnode : nodes' x.1 = ⟨merged, none, none⟩ := by
    rw [hsame x.1 hx.1, setBlock, Function.update_self, h.node]
  have hall : SameOff s.nodes nodes' (x.1 :: t.ids) :=
    (hset.mono (by simp)).trans (hsame.mono (List.subset_cons_self _ _))
  have hspare : Spare nodes' s.treenodeListHead spare :=
    h.spares.frame hall (List.disjoint_cons_right.mpr ⟨hx.2, List.disjoint_symm hts⟩)
  have hperm := ids_remove spare a t
  have hnodup : (x.1 :: (BlockTree.ids (t.remove Header.addr a).1 ++
      release spare (t.remove Header.addr a).2)).Nodup :=
    (hperm.cons x.1).nodup_iff.mpr h.nodup
  rw [absorb, hrun]
  generalize hc : t.remove Header.addr a = c at *
  obtain ⟨t', o⟩ := c
  cases o with
  | none => exact ⟨_, _, rfl, ⟨hrep, hnode, hspare, hnodup⟩, hall, rfl, rfl⟩
  | some y =>
    have hy : y.1 ∈ t.ids := removed_mem_ids (congrArg Prod.snd hc)
    have hyx : y.1 ≠ x.1 := fun he => hx.1 (he ▸ hy)
    have hyt : y.1 ∉ BlockTree.ids t' := by
      have hd := (List.nodup_append'.mp (List.nodup_cons.mp hnodup).2).2.2
      exact fun hin => hd hin List.mem_cons_self
    have hfree : SameOff nodes' (freeTreeNode { s with nodes := nodes' } y.1).nodes [y.1] :=
      sameOff_update _ (by simp)
    refine ⟨_, _, rfl, ⟨?_, ?_, ?_, hnodup⟩, hall.trans (hfree.mono ?_), rfl, rfl⟩
    · exact hrep.frame hfree (by simpa using hyt)
    · exact (hfree x.1 (by simpa using hyx.symm)).trans hnode
    · exact Spare.free (s := { s with nodes := nodes' }) hspare fun hin => hts hy hin
    · simpa using Or.inr hy

theorem absorbLeft_repr (h : Around s p t spare x) (hf : t.size < fuel) :
    ∃ s' p', absorbLeft fuel s p x.1 = some (s', p') ∧
      Around s' p' (coalesceLeft t spare x).1 (coalesceLeft t spare x).2.1
        (coalesceLeft t spare x).2.2 ∧ Within s s' (x.1 :: t.ids) := by
  rw [absorbLeft, findRightmost_repr h.tree hf, coalesceLeft]
  cases hm : t.rightmost with
  | none => exact ⟨s, p, rfl, h, Within.refl⟩
  | some nb =>
    have hnb : (s.nodes nb.1).block = nb.2 := by
      rw [NodeTree.rightmost_eq_last] at hm
      exact h.tree.block_of_mem (List.mem_of_getLast? hm)
    simp only [Option.map_some, Option.bind_some, h.node, hnb]
    by_cases htouch : nb.2.addr + nb.2.size = x.2.addr
    · rw [if_pos htouch, if_pos (show nb.2.stop = x.2.addr from htouch)]
      exact absorb_repr h hf _ _
    · rw [if_neg htouch, if_neg (show ¬ nb.2.stop = x.2.addr from htouch)]
      exact ⟨s, p, rfl, h, Within.refl⟩

theorem absorbRight_repr (h : Around s p t spare x) (hf : t.size < fuel) :
    ∃ s' p', absorbRight fuel s p x.1 = some (s', p') ∧
      Around s' p' (coalesceRight t spare x).1 (coalesceRight t spare x).2.1
        (coalesceRight t spare x).2.2 ∧ Within s s' (x.1 :: t.ids) := by
  rw [absorbRight, findLeftmost_repr h.tree hf, coalesceRight]
  cases hm : t.leftmost with
  | none => exact ⟨s, p, rfl, h, Within.refl⟩
  | some nb =>
    have hnb : (s.nodes nb.1).block = nb.2 := by
      rw [NodeTree.leftmost_eq_head] at hm
      exact h.tree.block_of_mem (List.mem_of_mem_head? hm)
    simp only [Option.map_some, Option.bind_some, h.node, hnb]
    by_cases htouch : x.2.addr + x.2.size = nb.2.addr
    · rw [if_pos htouch, if_pos (show x.2.stop = nb.2.addr from htouch)]
      exact absorb_repr h hf _ _
    · rw [if_neg htouch, if_neg (show ¬ x.2.stop = nb.2.addr from htouch)]
      exact ⟨s, p, rfl, h, Within.refl⟩

theorem size_split (a : Nat) (t : BlockTree) :
    (t.split nodeAddr a).1.size + (t.split nodeAddr a).2.size = t.size := by
  have h := congrArg List.length (ids_split a t)
  rwa [List.length_append, length_ids, length_ids, length_ids] at h

theorem ids_remove_subperm (a : Nat) (t : BlockTree) :
    (BlockTree.ids (t.remove Header.addr a).1).Subperm t.ids := by
  have h := ids_remove [] a t
  rw [List.append_nil] at h
  exact (List.sublist_append_left _ _).subperm.trans h.subperm

theorem coalesceLeft_subperm (t : BlockTree) (spare : List Nat) (x : Nat × Header) :
    (coalesceLeft t spare x).1.ids.Subperm t.ids := by
  rw [coalesceLeft]
  split
  · exact List.Subperm.refl _
  split
  · exact ids_remove_subperm _ t
  · exact List.Subperm.refl _

theorem coalesceRight_subperm (t : BlockTree) (spare : List Nat) (x : Nat × Header) :
    (coalesceRight t spare x).1.ids.Subperm t.ids := by
  rw [coalesceRight]
  split
  · exact List.Subperm.refl _
  split
  · exact ids_remove_subperm _ t
  · exact List.Subperm.refl _

theorem size_le_of_subperm {t' : BlockTree} (h : t'.ids.Subperm t.ids) : t'.size ≤ t.size := by
  rw [← length_ids, ← length_ids]
  exact h.length_le

theorem mergeAround_repr (hl : Repr nodes p t) (hx : nodes x.1 = ⟨x.2, none, none⟩)
    (hr : Repr nodes q r) (hn : (t.ids ++ x.1 :: r.ids).Nodup) (hf : t.size + r.size + 1 < fuel) :
    ∃ nodes₁ p₁ nodes₂ p₂, mergeTreap fuel nodes p (some x.1) = some (nodes₁, p₁) ∧
      mergeTreap fuel nodes₁ p₁ q = some (nodes₂, p₂) ∧
      Repr nodes₂ p₂ (NodeTree.merge nodeSize (NodeTree.merge nodeSize t (NodeTree.leaf x)) r) ∧
      SameOff nodes nodes₂ (t.ids ++ x.1 :: r.ids) := by
  have hleaf : BlockTree.ids (NodeTree.leaf x) = [x.1] := rfl
  have hn' : ((t.ids ++ [x.1]) ++ r.ids).Nodup := by
    rwa [List.append_assoc, List.singleton_append]
  obtain ⟨hn₁, -, hd⟩ := List.nodup_append'.mp hn'
  have hpx : Repr nodes (some x.1) (NodeTree.leaf x) := repr_leaf hx
  have hf₁ : t.size + (NodeTree.leaf x).size < fuel := by
    simp only [NodeTree.leaf, NodeTree.size]
    omega
  obtain ⟨nodes₁, p₁, hrun₁, hp₁, hsame₁⟩ := mergeTreap_repr hl hpx (hleaf ▸ hn₁) hf₁
  have hmid := ids_merge t (NodeTree.leaf x)
  rw [hleaf] at hmid hsame₁
  have hsize : (NodeTree.merge nodeSize t (NodeTree.leaf x)).size = t.size + 1 := by
    have hlen := congrArg List.length hmid
    rwa [List.length_append, length_ids, length_ids] at hlen
  have hr₁ : Repr nodes₁ q r := hr.frame hsame₁ (List.disjoint_symm hd)
  have hf₂ : (NodeTree.merge nodeSize t (NodeTree.leaf x)).size + r.size < fuel := by omega
  obtain ⟨nodes₂, p₂, hrun₂, hp₂, hsame₂⟩ := mergeTreap_repr hp₁ hr₁ (by rwa [hmid]) hf₂
  rw [hmid] at hsame₂
  refine ⟨nodes₁, p₁, nodes₂, p₂, hrun₁, hrun₂, hp₂, ?_⟩
  rw [← List.singleton_append, ← List.append_assoc]
  exact (hsame₁.mono (List.subset_append_left _ _)).trans hsame₂

/-- The trees on both sides of a node that is inserted, and the spare nodes. -/
structure Parts (s : LargeAllocator) (p q : Option Nat) (t r : BlockTree) (spare : List Nat)
    (x : Nat × Header) : Prop where
  left : Repr s.nodes p t
  right : Repr s.nodes q r
  node : s.nodes x.1 = ⟨x.2, none, none⟩
  spares : Spare s.nodes s.treenodeListHead spare
  nodup : (x.1 :: (t.ids ++ (r.ids ++ spare))).Nodup

theorem Parts.aroundLeft (h : Parts s p q t r spare x) : Around s p t spare x := by
  refine ⟨h.left, h.node, h.spares, h.nodup.sublist ?_⟩
  exact ((List.sublist_append_right _ _).append_left _).cons_cons _

theorem Parts.aroundRight (h : Parts s p q t r spare x) : Around s q r spare x := by
  refine ⟨h.right, h.node, h.spares, h.nodup.sublist ?_⟩
  exact (List.sublist_append_right _ _).cons_cons _

theorem splitTreap_parts (h : Around s p t spare x) (hf : t.size < fuel) (a : Nat) :
    ∃ nodes pl pr, splitTreap fuel s.nodes p a = some (nodes, pl, pr) ∧
      Parts { s with nodes := nodes } pl pr (t.split nodeAddr a).1 (t.split nodeAddr a).2
        spare x ∧ SameOff s.nodes nodes t.ids := by
  obtain ⟨hx, hn⟩ := List.nodup_cons.mp h.nodup
  obtain ⟨hnt, -, hts⟩ := List.nodup_append'.mp hn
  rw [List.mem_append, not_or] at hx
  obtain ⟨nodes, pl, pr, hsplit, hl, hr, hsame⟩ := splitTreap_repr h.tree hnt hf a
  refine ⟨nodes, pl, pr, hsplit, ⟨hl, hr, ?_, ?_, ?_⟩, hsame⟩
  · exact (hsame x.1 hx.1).trans h.node
  · exact h.spares.frame hsame (List.disjoint_symm hts)
  · rw [← List.append_assoc, ids_split]
    exact h.nodup

theorem Parts.absorbLeft (h : Parts s p q t r spare x) (hf : t.size < fuel) :
    ∃ s' p', absorbLeft fuel s p x.1 = some (s', p') ∧
      Parts s' p' q (coalesceLeft t spare x).1 r (coalesceLeft t spare x).2.1
        (coalesceLeft t spare x).2.2 ∧ Within s s' (x.1 :: t.ids) := by
  obtain ⟨s', p', hrun, har, hw⟩ := absorbLeft_repr h.aroundLeft hf
  obtain ⟨hids, hid⟩ := coalesceLeft_ids t spare x
  obtain ⟨hx, hn⟩ := List.nodup_cons.mp h.nodup
  have hxr : x.1 ∉ r.ids := fun hin =>
    hx (List.mem_append_right _ (List.mem_append_left _ hin))
  have htr : List.Disjoint t.ids r.ids :=
    (List.disjoint_append_right.mp (List.nodup_append'.mp hn).2.2).1
  have hright : Repr s'.nodes q r :=
    h.right.frame hw.nodes (List.disjoint_cons_right.mpr ⟨hxr, List.disjoint_symm htr⟩)
  refine ⟨s', p', hrun, ⟨har.tree, hright, har.node, har.spares, ?_⟩, hw⟩
  have hperm := calc
    ((coalesceLeft t spare x).1.ids ++ (r.ids ++ (coalesceLeft t spare x).2.1)).Perm
        (r.ids ++ ((coalesceLeft t spare x).1.ids ++ (coalesceLeft t spare x).2.1)) :=
      List.perm_append_comm_assoc _ _ _
    List.Perm _ (r.ids ++ (t.ids ++ spare)) := hids.append_left _
    List.Perm _ (t.ids ++ (r.ids ++ spare)) := List.perm_append_comm_assoc _ _ _
  rw [hid]
  exact (hperm.cons x.1).nodup_iff.mpr h.nodup

theorem Parts.absorbRight (h : Parts s p q t r spare x) (hf : r.size < fuel) :
    ∃ s' q', absorbRight fuel s q x.1 = some (s', q') ∧
      Parts s' p q' t (coalesceRight r spare x).1 (coalesceRight r spare x).2.1
        (coalesceRight r spare x).2.2 ∧ Within s s' (x.1 :: r.ids) := by
  obtain ⟨s', q', hrun, har, hw⟩ := absorbRight_repr h.aroundRight hf
  obtain ⟨hids, hid⟩ := coalesceRight_ids r spare x
  obtain ⟨hx, hn⟩ := List.nodup_cons.mp h.nodup
  have hxt : x.1 ∉ t.ids := fun hin => hx (List.mem_append_left _ hin)
  have htr : List.Disjoint t.ids r.ids :=
    (List.disjoint_append_right.mp (List.nodup_append'.mp hn).2.2).1
  have hleft : Repr s'.nodes p t :=
    h.left.frame hw.nodes (List.disjoint_cons_right.mpr ⟨hxt, htr⟩)
  refine ⟨s', q', hrun, ⟨hleft, har.tree, har.node, har.spares, ?_⟩, hw⟩
  rw [hid]
  exact ((hids.append_left t.ids).cons x.1).nodup_iff.mpr h.nodup

/-- The two merges at the end of `insert_treap`. -/
theorem Parts.merge (h : Parts s p q t r spare x) (hf : t.size + r.size + 1 < fuel) :
    ∃ nodes₁ p₁ nodes₂ p₂, mergeTreap fuel s.nodes p (some x.1) = some (nodes₁, p₁) ∧
      mergeTreap fuel nodes₁ p₁ q = some (nodes₂, p₂) ∧
      Repr nodes₂ p₂ (NodeTree.merge nodeSize (NodeTree.merge nodeSize t (NodeTree.leaf x)) r) ∧
      Spare nodes₂ s.treenodeListHead spare ∧ SameOff s.nodes nodes₂ (t.ids ++ x.1 :: r.ids) := by
  have hperm : ((t.ids ++ x.1 :: r.ids) ++ spare).Perm (x.1 :: (t.ids ++ (r.ids ++ spare))) := by
    rw [List.append_assoc, List.cons_append]
    exact List.perm_middle
  obtain ⟨hn, -, hd⟩ := List.nodup_append'.mp (hperm.nodup_iff.mpr h.nodup)
  obtain ⟨nodes₁, p₁, nodes₂, p₂, hrun₁, hrun₂, hrep, hsame⟩ :=
    mergeAround_repr h.left h.node h.right hn hf
  exact ⟨nodes₁, p₁, nodes₂, p₂, hrun₁, hrun₂, hrep,
    h.spares.frame hsame (List.disjoint_symm hd), hsame⟩

/-- `insert_treap` ends and does what `coalesce` does. -/
theorem insertTreap_repr (h : Around s p t spare x) (hf : t.size + 1 < fuel) :
    ∃ s' p', insertTreap fuel s p (some x.1) = some (s', p') ∧
      Repr s'.nodes p' (coalesce t spare x).1 ∧
      Spare s'.nodes s'.treenodeListHead (coalesce t spare x).2 ∧
      Within s s' (x.1 :: t.ids) := by
  have hsizes := size_split x.2.addr t
  have hlsub := ids_split_fst x.2.addr t
  have hrsub := ids_split_snd x.2.addr t
  obtain ⟨nodes, pl, pr, hsplit, hparts, hsame⟩ :=
    splitTreap_parts h (by omega : t.size < fuel) x.2.addr
  obtain ⟨s₁, pl', hrun₁, hparts₁, hw₁⟩ := hparts.absorbLeft (show _ < fuel by omega)
  have hid₁ := (coalesceLeft_ids (t.split nodeAddr x.2.addr).1 spare x).2
  have hsub₁ := coalesceLeft_subperm (t.split nodeAddr x.2.addr).1 spare x
  obtain ⟨s₂, pr', hrun₂, hparts₂, hw₂⟩ := hparts₁.absorbRight (show _ < fuel by omega)
  have hid₂ := (coalesceRight_ids (t.split nodeAddr x.2.addr).2
    (coalesceLeft (t.split nodeAddr x.2.addr).1 spare x).2.1
    (coalesceLeft (t.split nodeAddr x.2.addr).1 spare x).2.2).2
  have hsub₂ := coalesceRight_subperm (t.split nodeAddr x.2.addr).2
    (coalesceLeft (t.split nodeAddr x.2.addr).1 spare x).2.1
    (coalesceLeft (t.split nodeAddr x.2.addr).1 spare x).2.2
  have hle₁ := size_le_of_subperm hsub₁
  have hle₂ := size_le_of_subperm hsub₂
  obtain ⟨nodes₁, p₁, nodes₂, p₂, hm₁, hm₂, hrep, hspare, hsame₂⟩ :=
    hparts₂.merge (show _ < fuel by omega)
  rw [hid₁] at hrun₂ hw₂ hid₂
  rw [hid₂] at hm₁ hsame₂
  have hwithin : Within s s₂ (x.1 :: t.ids) := by
    have h₁ := hw₁.mono (List.cons_subset_cons x.1 hlsub)
    have h₂ := hw₂.mono (List.cons_subset_cons x.1 hrsub)
    exact ⟨(hsame.mono (List.subset_cons_self _ _)).trans (h₁.nodes.trans h₂.nodes),
      h₂.freeRoot.trans h₁.freeRoot, h₂.occupiedRoot.trans h₁.occupiedRoot⟩
  have hblock : (s.nodes x.1).block = x.2 := by rw [h.node]
  refine ⟨{ s₂ with nodes := nodes₂ }, p₂, ?_, hrep, hspare, ?_, hwithin.freeRoot,
    hwithin.occupiedRoot⟩
  · simp only [insertTreap, hblock, hsplit, Option.bind_eq_bind, Option.bind_some, hrun₁, hrun₂,
      hm₁, hm₂]
  · refine hwithin.nodes.trans (hsame₂.mono fun i hi => ?_)
    rw [List.mem_append, List.mem_cons] at hi
    rcases hi with hi | rfl | hi
    · exact List.mem_cons_of_mem _ (hlsub (hsub₁.subset hi))
    · exact List.mem_cons_self
    · exact List.mem_cons_of_mem _ (hrsub (hsub₂.subset hi))

end Store

def Slot.Avoids (slot : Slot) (ids : List Nat) : Prop :=
  match slot with
  | .occupiedRoot => True
  | .left i => i ∉ ids
  | .right i => i ∉ ids

section Slots

variable {s s' s'' : LargeAllocator} {slot : Slot} {p q head : Option Nat} {ids ids' l : List Nat}
  {t : BlockTree} {fuel depth : Nat}

@[simp] theorem readSlot_writeSlot : readSlot (writeSlot s slot p) slot = p := by
  cases slot <;> simp [readSlot, writeSlot, setLeft, setRight]

@[simp] theorem writeSlot_readSlot : writeSlot s slot (readSlot s slot) = s := by
  cases slot <;> simp [readSlot, writeSlot, setLeft, setRight]

@[simp] theorem writeSlot_writeSlot :
    writeSlot (writeSlot s slot p) slot q = writeSlot s slot q := by
  cases slot <;> simp [writeSlot, setLeft, setRight]

@[simp] theorem writeSlot_freeRoot : (writeSlot s slot p).freeRoot = s.freeRoot := by
  cases slot <;> rfl

@[simp] theorem writeSlot_head : (writeSlot s slot p).treenodeListHead = s.treenodeListHead := by
  cases slot <;> rfl

theorem Slot.Avoids.mono (h : slot.Avoids ids') (hsub : ids ⊆ ids') : slot.Avoids ids := by
  cases slot with
  | occupiedRoot => trivial
  | left i => exact fun hi => h (hsub hi)
  | right i => exact fun hi => h (hsub hi)

/-- Writing a slot changes none of the nodes it avoids. -/
theorem Slot.Avoids.same (h : slot.Avoids ids) {i : Nat} (hi : i ∈ ids) :
    (writeSlot s slot p).nodes i = s.nodes i := by
  cases slot with
  | occupiedRoot => rfl
  | left j => exact Function.update_of_ne (fun he : i = j => h (he ▸ hi)) _ _
  | right j => exact Function.update_of_ne (fun he : i = j => h (he ▸ hi)) _ _

theorem Repr.writeSlot (h : Repr s.nodes q t) (ha : slot.Avoids t.ids) :
    Repr (writeSlot s slot p).nodes q t :=
  h.congr fun _ hi => ha.same hi

theorem Spare.writeSlot (h : Spare s.nodes head l) (ha : slot.Avoids l) :
    Spare (writeSlot s slot p).nodes head l := by
  refine ⟨h.list.congr fun i hi => ?_, fun i hi => ?_⟩
  · rw [ha.same hi]
  · rw [ha.same hi]
    exact h.zero i hi

/-- Of the nodes outside `ids` and the occupied root only the slot changed. -/
structure OnlySlot (s s' : LargeAllocator) (slot : Slot) (ids : List Nat) : Prop where
  nodes : SameOff (writeSlot s slot (readSlot s' slot)).nodes s'.nodes ids
  occupiedRoot : s'.occupiedRoot = (writeSlot s slot (readSlot s' slot)).occupiedRoot

theorem writeSlot_congr (h : SameOff s.nodes s'.nodes ids) (ha : slot.Avoids ids)
    (ho : s'.occupiedRoot = s.occupiedRoot) :
    SameOff (writeSlot s slot p).nodes (writeSlot s' slot p).nodes ids ∧
      (writeSlot s' slot p).occupiedRoot = (writeSlot s slot p).occupiedRoot := by
  cases slot with
  | occupiedRoot => exact ⟨h, rfl⟩
  | left i =>
    refine ⟨fun j hj => ?_, ho⟩
    by_cases hji : j = i
    · subst hji
      simp only [writeSlot, setLeft, Function.update_self, h j hj]
    · simp only [writeSlot, setLeft, Function.update_of_ne hji, h j hj]
  | right i =>
    refine ⟨fun j hj => ?_, ho⟩
    by_cases hji : j = i
    · subst hji
      simp only [writeSlot, setRight, Function.update_self, h j hj]
    · simp only [writeSlot, setRight, Function.update_of_ne hji, h j hj]

theorem readSlot_same (h : SameOff s.nodes s'.nodes ids) (ha : slot.Avoids ids)
    (ho : s'.occupiedRoot = s.occupiedRoot) : readSlot s' slot = readSlot s slot := by
  cases slot with
  | occupiedRoot => exact ho
  | left i => rw [readSlot, readSlot, h i ha]
  | right i => rw [readSlot, readSlot, h i ha]

/-- A state in which the slot and the nodes outside `ids` are as before. -/
theorem onlySlot_of_same (h : SameOff s.nodes s'.nodes ids) (ha : slot.Avoids ids)
    (ho : s'.occupiedRoot = s.occupiedRoot) : OnlySlot s s' slot ids := by
  have hread := readSlot_same h ha ho
  refine ⟨?_, ?_⟩
  · rw [hread, writeSlot_readSlot]
    exact h
  · rw [hread, writeSlot_readSlot]
    exact ho

theorem OnlySlot.trans (h : OnlySlot s s' slot ids) (ha : slot.Avoids ids)
    (h' : OnlySlot s' s'' slot ids) : OnlySlot s s'' slot ids := by
  obtain ⟨hn, hr⟩ := writeSlot_congr (p := readSlot s'' slot) h.nodes ha h.occupiedRoot
  rw [writeSlot_writeSlot] at hn hr
  exact ⟨hn.trans h'.nodes, h'.occupiedRoot.trans hr⟩

theorem OnlySlot.mono (h : OnlySlot s s' slot ids) (hsub : ids ⊆ ids') :
    OnlySlot s s' slot ids' :=
  ⟨h.nodes.mono hsub, h.occupiedRoot⟩

/-- The tree in a slot, the free tree and the spare nodes. -/
structure InSlot (s : LargeAllocator) (slot : Slot) (c : BlockTree × BlockTree × List Nat) :
    Prop where
  tree : Repr s.nodes (readSlot s slot) c.1
  free : Repr s.nodes s.freeRoot c.2.1
  spares : Spare s.nodes s.treenodeListHead c.2.2

/-- `insert_treap` of the node cut off into the free tree, with the tree `t` in the slot. -/
theorem insertFreed_repr {s : LargeAllocator} {slot : Slot} {free : BlockTree} {spare : List Nat}
    {x : Nat × Header} (h : InSlot s slot (t, free, spare)) (hx : s.nodes x.1 = ⟨x.2, none, none⟩)
    (hn : (x.1 :: (t.ids ++ (free.ids ++ spare))).Nodup)
    (ha : slot.Avoids (x.1 :: (t.ids ++ (free.ids ++ spare)))) (hf : free.size + 1 < fuel) :
    ∃ s' p', insertTreap fuel s s.freeRoot (some x.1) = some (s', p') ∧
      InSlot { s' with freeRoot := p' } slot (t, coalesce free spare x) ∧
      OnlySlot s { s' with freeRoot := p' } slot (x.1 :: free.ids) := by
  obtain ⟨hxn, hnall⟩ := List.nodup_cons.mp hn
  obtain ⟨-, hnfs, hd⟩ := List.nodup_append'.mp hnall
  rw [List.mem_append, not_or] at hxn
  have haround : Around s s.freeRoot free spare x :=
    ⟨h.free, hx, h.spares, List.nodup_cons.mpr ⟨hxn.2, hnfs⟩⟩
  obtain ⟨s', p', hrun, hrep, hspare, hwithin⟩ := insertTreap_repr haround hf
  have hax : slot.Avoids (x.1 :: free.ids) := ha.mono fun i hi => by
    simp only [List.mem_cons, List.mem_append] at hi ⊢
    tauto
  have hsame : SameOff s.nodes ({ s' with freeRoot := p' } : LargeAllocator).nodes
      (x.1 :: free.ids) := hwithin.nodes
  refine ⟨s', p', hrun, ⟨?_, hrep, hspare⟩, onlySlot_of_same hsame hax hwithin.occupiedRoot⟩
  rw [readSlot_same hsame hax hwithin.occupiedRoot]
  refine h.tree.frame hsame (List.disjoint_cons_right.mpr ⟨hxn.1, fun i hi hif => ?_⟩)
  exact hd hi (List.mem_append_left _ hif)

/-- The slot is set to a tree that was made of the nodes `ids`. -/
theorem writeSlot_repr {s : LargeAllocator} {nodes' : Nodes} {root' : Option Nat}
    {free : BlockTree} {spare : List Nat} (hfree : Repr s.nodes s.freeRoot free)
    (hspares : Spare s.nodes s.treenodeListHead spare) (hrep : Repr nodes' root' t)
    (hsame : SameOff s.nodes nodes' ids) (hsub : t.ids ⊆ ids)
    (hd : List.Disjoint ids (free.ids ++ spare)) (ha : slot.Avoids (ids ++ (free.ids ++ spare))) :
    InSlot (writeSlot { s with nodes := nodes' } slot root') slot (t, free, spare) ∧
      OnlySlot s (writeSlot { s with nodes := nodes' } slot root') slot ids := by
  have hids : slot.Avoids ids := ha.mono (List.subset_append_left _ _)
  have hrest : slot.Avoids (free.ids ++ spare) := ha.mono (List.subset_append_right _ _)
  have hfree' : Repr nodes' s.freeRoot free :=
    hfree.frame hsame fun i hi hit => hd hit (List.mem_append_left _ hi)
  have hspare' : Spare nodes' s.treenodeListHead spare :=
    hspares.frame hsame fun i hi hit => hd hit (List.mem_append_right _ hi)
  have hoff : SameOff s.nodes ({ s with nodes := nodes' } : LargeAllocator).nodes ids := hsame
  obtain ⟨hsn, hso⟩ := writeSlot_congr (p := root') hoff hids rfl
  refine ⟨⟨?_, ?_, ?_⟩, ?_, ?_⟩
  · rw [readSlot_writeSlot]
    exact Repr.writeSlot (s := { s with nodes := nodes' }) hrep (hids.mono hsub)
  · rw [writeSlot_freeRoot]
    exact Repr.writeSlot (s := { s with nodes := nodes' }) hfree'
      (hrest.mono (List.subset_append_left _ _))
  · rw [writeSlot_head]
    exact Spare.writeSlot (s := { s with nodes := nodes' }) hspare'
      (hrest.mono (List.subset_append_right _ _))
  · rw [readSlot_writeSlot]
    exact hsn
  · rw [readSlot_writeSlot]
    exact hso

/-- A node that stays in the tree loses its mark. -/
theorem unmarkRoot_repr {s : LargeAllocator} {l r free : BlockTree} {v : Nat × Header}
    {spare : List Nat} (h : InSlot s slot (.node l v r, free, spare))
    (hn : (BlockTree.ids (.node l v r) ++ (free.ids ++ spare)).Nodup)
    (ha : slot.Avoids [v.1]) :
    InSlot { s with nodes := setBlock s.nodes v.1 (unmark v.2) } slot
        (.node l (v.1, unmark v.2) r, free, spare) ∧
      OnlySlot s { s with nodes := setBlock s.nodes v.1 (unmark v.2) } slot [v.1] := by
  obtain ⟨hread, -, hl, hr⟩ := h.tree
  obtain ⟨hnt, -, hd⟩ := List.nodup_append'.mp hn
  obtain ⟨-, -, hvl, hvr, -⟩ := nodup_ids_node.mp hnt
  have hvd : v.1 ∉ free.ids ++ spare := hd (by simp)
  rw [List.mem_append, not_or] at hvd
  have hsame : SameOff s.nodes (setBlock s.nodes v.1 (unmark v.2)) [v.1] :=
    sameOff_update _ (by simp)
  have hroot : readSlot { s with nodes := setBlock s.nodes v.1 (unmark v.2) } slot =
      readSlot s slot := readSlot_same hsame ha rfl
  refine ⟨⟨?_, h.free.frame hsame (by simpa using hvd.1),
    h.spares.frame hsame (by simpa using hvd.2)⟩, onlySlot_of_same hsame ha rfl⟩
  rw [hroot, hread]
  refine ⟨rfl, ?_, ?_, ?_⟩
  · simp only [setBlock, Function.update_self]
  · simp only [setBlock, Function.update_self]
    exact hl.update_of_not_mem hvl _
  · simp only [setBlock, Function.update_self]
    exact hr.update_of_not_mem hvr _

/-- The end of `cleanup_bst`. -/
theorem cleanupRoot_repr {l r free : BlockTree} {v : Nat × Header} {spare : List Nat}
    (h : InSlot s slot (.node l v r, free, spare))
    (hn : (BlockTree.ids (.node l v r) ++ (free.ids ++ spare)).Nodup)
    (ha : slot.Avoids (BlockTree.ids (.node l v r) ++ (free.ids ++ spare)))
    (hf : (NodeTree.node l v r).size + free.size + 1 < fuel) :
    ∃ s', cleanupRoot fuel s slot v.1 = some s' ∧
      InSlot s' slot (cleanupTop l v r free spare) ∧
      OnlySlot s s' slot (BlockTree.ids (.node l v r) ++ (free.ids ++ spare)) := by
  obtain ⟨hread, hb, -, -⟩ := h.tree
  obtain ⟨hnt, -, hd⟩ := List.nodup_append'.mp hn
  have hv : [v.1] ⊆ BlockTree.ids (.node l v r) ++ (free.ids ++ spare) := by simp
  rw [cleanupRoot, cleanupTop, hb]
  by_cases hm : v.2.isMarked = true
  · simp only [if_pos hm]
    obtain ⟨hin, honly⟩ := unmarkRoot_repr h hn (ha.mono hv)
    exact ⟨_, rfl, hin, honly.mono hv⟩
  · simp only [if_neg hm]
    have hsize : (NodeTree.node l v r).size < fuel := by omega
    obtain ⟨nodes', root', hrun, hrep, hsame, hcut⟩ := removeBst_repr h.tree hnt hsize v.2.addr
    have hperm := ids_remove (free.ids ++ spare) v.2.addr (.node l v r)
    have hsub := ids_remove_subset v.2.addr (.node l v r)
    rw [hread] at hrun
    rw [NodeTree.remove_of_eq rfl] at hrun hrep hcut hperm hsub
    generalize NodeTree.removeRoot l v r = c at *
    obtain ⟨t', o⟩ := c
    obtain ⟨hin, honly⟩ := writeSlot_repr h.free h.spares hrep hsame hsub hd ha
    have hwrite := honly.mono (List.subset_append_left _ (free.ids ++ spare))
    cases o with
    | none =>
      refine ⟨_, ?_, hin, hwrite⟩
      simp only [hrun, Option.bind_eq_bind, Option.bind_some, Option.map_none, insertTreap]
    | some x =>
      have hnx : (x.1 :: (BlockTree.ids t' ++ (free.ids ++ spare))).Nodup :=
        List.perm_middle.nodup_iff.mp (hperm.nodup_iff.mpr hn)
      have hax : slot.Avoids (x.1 :: (BlockTree.ids t' ++ (free.ids ++ spare))) :=
        ha.mono (List.Subset.trans List.perm_middle.symm.subset hperm.subset)
      have hx : (writeSlot { s with nodes := nodes' } slot root').nodes x.1 =
          ⟨x.2, none, none⟩ := by
        rw [hax.same List.mem_cons_self]
        exact hcut x rfl
      obtain ⟨s', p', hrun', hin', honly⟩ :=
        insertFreed_repr hin hx hnx hax (by omega : free.size + 1 < fuel)
      refine ⟨_, ?_, hin', hwrite.trans ha (honly.mono fun i hi => hperm.subset ?_)⟩
      · simp only [hrun, Option.bind_eq_bind, Option.bind_some, Option.map_some, hrun']
      · simp only [release, List.mem_append, List.mem_cons] at hi ⊢
        tauto

/-- A call on the left child leaves the node with the tree that it has made of it. -/
theorem leftCleaned_repr {l l' r : BlockTree} {v : Nat × Header}
    (h : Repr s.nodes (some v.1) (.node l v r)) (hl : Repr s'.nodes (readSlot s' (.left v.1)) l')
    (honly : OnlySlot s s' (.left v.1) ids) (hv : v.1 ∉ ids)
    (hd : List.Disjoint (BlockTree.ids r) (v.1 :: ids)) :
    Repr s'.nodes (some v.1) (.node l' v r) ∧ SameOff s.nodes s'.nodes (v.1 :: ids) ∧
      s'.occupiedRoot = s.occupiedRoot := by
  obtain ⟨-, hb, -, hr⟩ := h
  have hnode : s'.nodes v.1 = { s.nodes v.1 with left := (s'.nodes v.1).left } := by
    rw [honly.nodes v.1 hv]
    simp only [writeSlot, setLeft, Function.update_self, readSlot]
  have hsame : SameOff s.nodes s'.nodes (v.1 :: ids) := by
    intro i hi
    rw [List.mem_cons, not_or] at hi
    rw [honly.nodes i hi.2]
    exact Function.update_of_ne hi.1 _ _
  refine ⟨⟨rfl, ?_, hl, ?_⟩, hsame, honly.occupiedRoot⟩
  · rw [hnode]
    exact hb
  · rw [hnode]
    exact hr.frame hsame hd

theorem rightCleaned_repr {l r r' : BlockTree} {v : Nat × Header}
    (h : Repr s.nodes (some v.1) (.node l v r)) (hr : Repr s'.nodes (readSlot s' (.right v.1)) r')
    (honly : OnlySlot s s' (.right v.1) ids) (hv : v.1 ∉ ids)
    (hd : List.Disjoint (BlockTree.ids l) (v.1 :: ids)) :
    Repr s'.nodes (some v.1) (.node l v r') ∧ SameOff s.nodes s'.nodes (v.1 :: ids) ∧
      s'.occupiedRoot = s.occupiedRoot := by
  obtain ⟨-, hb, hl, -⟩ := h
  have hnode : s'.nodes v.1 = { s.nodes v.1 with right := (s'.nodes v.1).right } := by
    rw [honly.nodes v.1 hv]
    simp only [writeSlot, setRight, Function.update_self, readSlot]
  have hsame : SameOff s.nodes s'.nodes (v.1 :: ids) := by
    intro i hi
    rw [List.mem_cons, not_or] at hi
    rw [honly.nodes i hi.2]
    exact Function.update_of_ne hi.1 _ _
  refine ⟨⟨rfl, ?_, ?_, hr⟩, hsame, honly.occupiedRoot⟩
  · rw [hnode]
    exact hb
  · rw [hnode]
    exact hl.frame hsame hd

/-- `cleanup_bst` ends and does what `cleanup` does. `fuel` and `depth` are bounded by the
number of nodes, which no step changes. -/
theorem cleanupBst_repr {free : BlockTree} {spare : List Nat} (h : InSlot s slot (t, free, spare))
    (hn : (t.ids ++ (free.ids ++ spare)).Nodup)
    (ha : slot.Avoids (t.ids ++ (free.ids ++ spare)))
    (hf : (t.ids ++ (free.ids ++ spare)).length + 1 < fuel) (hd : t.size < depth) :
    ∃ s', cleanupBst fuel depth s slot = some s' ∧ InSlot s' slot (cleanup t free spare) ∧
      OnlySlot s s' slot (t.ids ++ (free.ids ++ spare)) := by
  induction t generalizing s slot free spare depth with
  | nil =>
    obtain ⟨depth, rfl⟩ := Nat.exists_eq_add_one_of_ne_zero (Nat.ne_of_gt (Nat.zero_lt_of_lt hd))
    refine ⟨s, ?_, h, onlySlot_of_same SameOff.refl ha rfl⟩
    rw [cleanupBst, show readSlot s slot = none from h.tree]
  | node l v r ihl ihr =>
    obtain ⟨depth, rfl⟩ := Nat.exists_eq_add_one_of_ne_zero (Nat.ne_of_gt (Nat.zero_lt_of_lt hd))
    obtain ⟨hread, hb, hl, hr⟩ := h.tree
    obtain ⟨hnt, hnfs, hdisj⟩ := List.nodup_append'.mp hn
    obtain ⟨hnl, hnr, hvl, hvr, hlr⟩ := nodup_ids_node.mp hnt
    have hvfs : v.1 ∉ free.ids ++ spare := hdisj (by simp)
    simp only [NodeTree.size] at hd
    have hlen := congrArg List.length (ids_node (l := l) (v := v) (r := r))
    simp only [List.length_append, List.length_cons] at hlen hf
    -- the left subtree
    have hvl₁ : v.1 ∉ BlockTree.ids l ++ (free.ids ++ spare) := by
      rw [List.mem_append, not_or]
      exact ⟨hvl, hvfs⟩
    have hrl : List.Disjoint (BlockTree.ids r)
        (v.1 :: (BlockTree.ids l ++ (free.ids ++ spare))) := by
      refine List.disjoint_cons_right.mpr ⟨hvr, fun i hi hin => ?_⟩
      rcases List.mem_append.mp hin with hin | hin
      · exact hlr hin hi
      · exact hdisj (by simp [hi]) hin
    have hinl : InSlot s (.left v.1) (l, free, spare) := ⟨hl, h.free, h.spares⟩
    obtain ⟨s₁, hrun₁, hin₁, honly₁⟩ := ihl hinl
      (List.nodup_append'.mpr ⟨hnl, hnfs, fun i hi => hdisj (by simp [hi])⟩) hvl₁
      (by simp only [List.length_append]; omega) (by omega : l.size < depth)
    have hpl := cleanup_ids l free spare
    rw [cleanup]
    generalize cleanup l free spare = p at *
    obtain ⟨hrep₁, hsame₁, hocc₁⟩ :=
      leftCleaned_repr (hread ▸ h.tree) hin₁.tree honly₁ hvl₁ hrl
    -- the right subtree
    have hall : (BlockTree.ids (.node p.1 v r) ++ (p.2.1.ids ++ p.2.2)).Perm
        (BlockTree.ids (.node l v r) ++ (free.ids ++ spare)) :=
      children_ids v hpl (List.Perm.refl _)
    obtain ⟨hnt₁, hnfs₁, hdisj₁⟩ := List.nodup_append'.mp (hall.nodup_iff.mpr hn)
    obtain ⟨-, -, hvp, -, hpr⟩ := nodup_ids_node.mp hnt₁
    have hvr₁ : v.1 ∉ BlockTree.ids r ++ (p.2.1.ids ++ p.2.2) := by
      rw [List.mem_append, not_or]
      exact ⟨hvr, hdisj₁ (by simp)⟩
    have hlp : List.Disjoint p.1.ids (v.1 :: (BlockTree.ids r ++ (p.2.1.ids ++ p.2.2))) := by
      refine List.disjoint_cons_right.mpr ⟨hvp, fun i hi hin => ?_⟩
      rcases List.mem_append.mp hin with hin | hin
      · exact hpr hi hin
      · exact hdisj₁ (by simp [hi]) hin
    have hfr : (BlockTree.ids r ++ (p.2.1.ids ++ p.2.2)).length + 1 < fuel := by
      have hlen₁ := hall.length_eq
      rw [List.length_append, ids_node, List.length_append, List.length_cons] at hlen₁
      rw [List.length_append]
      simp only [List.length_append] at hlen₁ ⊢
      omega
    have hinr : InSlot s₁ (.right v.1) (r, p.2.1, p.2.2) := ⟨hrep₁.2.2.2, hin₁.free, hin₁.spares⟩
    obtain ⟨s₂, hrun₂, hin₂, honly₂⟩ := ihr hinr
      (List.nodup_append'.mpr ⟨hnr, hnfs₁, fun i hi => hdisj₁ (by simp [hi])⟩) hvr₁ hfr
      (by omega : r.size < depth)
    have hqr := cleanup_ids r p.2.1 p.2.2
    generalize cleanup r p.2.1 p.2.2 = q at *
    obtain ⟨hrep₂, hsame₂, hocc₂⟩ := rightCleaned_repr hrep₁ hin₂.tree honly₂ hvr₁ hlp
    -- the node itself
    have hall₂ : (BlockTree.ids (.node p.1 v q.1) ++ (q.2.1.ids ++ q.2.2)).Perm
        (BlockTree.ids (.node l v r) ++ (free.ids ++ spare)) := children_ids v hpl hqr
    have hleft : SameOff s.nodes s₁.nodes (BlockTree.ids (.node l v r) ++ (free.ids ++ spare)) := by
      refine hsame₁.mono fun i hi => ?_
      simp only [ids_node, List.mem_append, List.mem_cons] at hi ⊢
      tauto
    have hsame : SameOff s.nodes s₂.nodes (BlockTree.ids (.node l v r) ++ (free.ids ++ spare)) := by
      refine hleft.trans (hsame₂.mono fun i hi => hall.subset ?_)
      simp only [ids_node, List.mem_append, List.mem_cons] at hi ⊢
      tauto
    have hocc : s₂.occupiedRoot = s.occupiedRoot := hocc₂.trans hocc₁
    have hread₁ : readSlot s₁ slot = some v.1 := (readSlot_same hleft ha hocc₁).trans hread
    have hread₂ : readSlot s₂ slot = some v.1 := (readSlot_same hsame ha hocc).trans hread
    have hin : InSlot s₂ slot (.node p.1 v q.1, q.2.1, q.2.2) := by
      refine ⟨?_, hin₂.free, hin₂.spares⟩
      rw [hread₂]
      exact hrep₂
    have hlen₂ := hall₂.length_eq
    simp only [List.length_append, length_ids] at hlen₂ hf
    obtain ⟨s₃, hrun₃, hin₃, honly₃⟩ := cleanupRoot_repr hin (hall₂.nodup_iff.mpr hn)
      (ha.mono hall₂.subset) (show _ < fuel by omega)
    refine ⟨s₃, ?_, hin₃, (onlySlot_of_same hsame ha hocc).trans ha (honly₃.mono hall₂.subset)⟩
    simp only [cleanupBst, hread, hrun₁, hread₁, hrun₂, hread₂, hrun₃, Option.bind_eq_bind,
      Option.bind_some]

end Slots

end GarbageCollector
