import GarbageCollector.LargeRefinement

/-!
# Calls of the large allocator on whole states

`Shape` ties a state of the large allocator to its two trees and its spare nodes. A sweep keeps
it in every case; an allocation keeps it when the free node it takes has no children, since
`remove_treap` leaves the child pointers of the removed node as they are.
-/

namespace GarbageCollector

open BinaryTree LinkedList

/-- The free tree, the occupied tree and the spare nodes share the nodes between them. -/
structure Shape (cfg : Config) (s : LargeAllocator) (free occupied : BlockTree)
    (spare : List Nat) : Prop where
  freeTree : Repr s.nodes s.freeRoot free
  occupiedTree : Repr s.nodes s.occupiedRoot occupied
  spares : Spare s.nodes s.treenodeListHead spare
  ids : (occupied.ids ++ (free.ids ++ spare)).Perm (List.range cfg.treenodeCount)

/-- The trees and the spare list behind the pointers of a state share no node. -/
structure Holds (s : LargeAllocator) (free occupied : BlockTree) (spare : List Nat) : Prop where
  freeTree : Repr s.nodes s.freeRoot free
  occupiedTree : Repr s.nodes s.occupiedRoot occupied
  spares : Spare s.nodes s.treenodeListHead spare
  nodup : (occupied.ids ++ (free.ids ++ spare)).Nodup

section States

variable {cfg : Config} {s : LargeAllocator} {free occupied : BlockTree} {spare : List Nat}
  {fuel : Nat}

theorem Shape.nodup (h : Shape cfg s free occupied spare) :
    (occupied.ids ++ (free.ids ++ spare)).Nodup :=
  h.ids.nodup_iff.mpr List.nodup_range

theorem Shape.holds (h : Shape cfg s free occupied spare) : Holds s free occupied spare :=
  ⟨h.freeTree, h.occupiedTree, h.spares, h.nodup⟩

theorem Holds.disjoint (h : Holds s free occupied spare) :
    List.Disjoint occupied.ids free.ids :=
  (List.disjoint_append_right.mp (List.nodup_append'.mp h.nodup).2.2).1

theorem Shape.length (h : Shape cfg s free occupied spare) :
    occupied.size + (free.size + spare.length) = cfg.treenodeCount := by
  have hlen := h.ids.length_eq
  rwa [List.length_append, List.length_append, length_ids, length_ids, List.length_range] at hlen

/-- `sweep_large_heap` ends and does what `cleanup` does. -/
theorem sweepLargeHeap_repr (h : Shape cfg s free occupied spare)
    (hf : cfg.treenodeCount + 1 < fuel) :
    ∃ s', sweepLargeHeap fuel s = some s' ∧
      Shape cfg s' (cleanup occupied free spare).2.1 (cleanup occupied free spare).1
        (cleanup occupied free spare).2.2 := by
  have hlen := h.length
  rw [sweepLargeHeap]
  cases hroot : s.occupiedRoot with
  | none =>
    have hnil := h.occupiedTree.root_eq.mp hroot
    subst hnil
    exact ⟨s, rfl, h⟩
  | some root =>
    have hin : InSlot s .occupiedRoot (occupied, free, spare) :=
      ⟨h.occupiedTree, h.freeTree, h.spares⟩
    have hfuel : (occupied.ids ++ (free.ids ++ spare)).length + 1 < fuel := by
      rw [h.ids.length_eq, List.length_range]
      exact hf
    obtain ⟨s', hrun, hin', -⟩ :=
      cleanupBst_repr hin h.nodup trivial hfuel (by omega : occupied.size < fuel)
    exact ⟨s', hrun, hin'.free, hin'.tree, hin'.spares, (cleanup_ids _ _ _).trans h.ids⟩

/-- The first spare node is taken. -/
theorem getNewTreeNode_repr {j : Nat} {rest : List Nat}
    (h : Spare s.nodes s.treenodeListHead (j :: rest)) :
    ∃ s', getNewTreeNode s = (some j, s') ∧ s'.nodes j = ⟨⟨0, 0, false⟩, none, none⟩ ∧
      Spare s'.nodes s'.treenodeListHead rest ∧ Within s s' [j] := by
  obtain ⟨hhead, hlist⟩ := h.list
  have hj : j ∉ rest := (List.nodup_cons.mp h.list.nodup).1
  have hoff : SameOff s.nodes (detach s.nodes j) [j] := sameOff_update _ (by simp)
  have hrest : Spare s.nodes (s.nodes j).right rest :=
    ⟨hlist, fun i hi => h.zero i (List.mem_cons_of_mem _ hi)⟩
  rw [getNewTreeNode, hhead]
  refine ⟨_, rfl, ?_, hrest.frame hoff (by simpa using hj), hoff, rfl, rfl⟩
  simp only [detach_self, h.zero j List.mem_cons_self]

/-- `s'` is the state after `get_new_tree_node`; in `nodes` the block of `i` is cut down to `b`
and the new node `j` has the rest `c` of it. -/
structure SplitOff (s s' : LargeAllocator) (nodes : Nodes) (i j : Nat) (b c : Header)
    (rest : List Nat) : Prop where
  zero : (s'.nodes j).block = ⟨0, 0, false⟩
  freeRoot : s'.freeRoot = s.freeRoot
  occupiedRoot : s'.occupiedRoot = s.occupiedRoot
  same : SameOff s.nodes nodes [i, j]
  kept : nodes i = { s.nodes i with block := b }
  new : nodes j = ⟨c, none, none⟩
  spares : Spare nodes s'.treenodeListHead rest

theorem disjoint_pair {ids : List Nat} {i j : Nat} (hi : i ∉ ids) (hj : j ∉ ids) :
    List.Disjoint ids [i, j] := by
  simp only [List.disjoint_cons_right]
  exact ⟨hi, hj, List.disjoint_nil_right _⟩

theorem splitOff_repr {i j : Nat} {rest : List Nat}
    (h : Spare s.nodes s.treenodeListHead (j :: rest)) (hi : i ∉ j :: rest) (b c : Header) :
    ∃ s', getNewTreeNode s = (some j, s') ∧
      SplitOff s s' (setBlock (setBlock s'.nodes j c) i b) i j b c rest := by
  obtain ⟨s', hget, hj, hrest, hw⟩ := getNewTreeNode_repr h
  have hjrest : j ∉ rest := (List.nodup_cons.mp h.list.nodup).1
  rw [List.mem_cons, not_or] at hi
  have hoff : SameOff s'.nodes (setBlock (setBlock s'.nodes j c) i b) [i, j] :=
    (sameOff_update _ (by simp)).trans (sameOff_update _ (by simp))
  refine ⟨s', hget, by rw [hj], hw.freeRoot, hw.occupiedRoot, ?_, ?_, ?_, ?_⟩
  · exact (hw.nodes.mono (by simp)).trans hoff
  · simp only [setBlock, Function.update_self, Function.update_of_ne hi.1]
    rw [hw.nodes i (by simpa using hi.1)]
  · simp only [setBlock, Function.update_of_ne (Ne.symm hi.1), Function.update_self, hj]
  · exact hrest.frame hoff (disjoint_pair hi.2 hjrest)

/-- `first_fit_search` finds no node with a child. -/
def FitsChildless (s : LargeAllocator) (size : Nat) : Prop :=
  ∀ i, firstFitSearch s.nodes s.freeRoot size = some i →
    (s.nodes i).left = none ∧ (s.nodes i).right = none

instance (s : LargeAllocator) (size : Nat) : Decidable (FitsChildless s size) :=
  match h : firstFitSearch s.nodes s.freeRoot size with
  | none => isTrue fun i hi => by rw [h] at hi; cases hi
  | some i =>
    decidable_of_iff ((s.nodes i).left = none ∧ (s.nodes i).right = none)
      ⟨fun hc j hj => by rw [h] at hj; cases hj; exact hc, fun hc => hc i h⟩

/-- What `allocate_large_object` does with a free tree that is a single node, or too small. -/
inductive Granted (s' : LargeAllocator) (size : Nat) (free occupied : BlockTree)
    (spare : List Nat) : Option Nat → Prop where
  | failed (h : Holds s' free occupied spare) : Granted s' size free occupied spare none
  | whole (i : Nat) (b : Header) (hfree : free = NodeTree.leaf (i, b)) (hsize : b.size = size)
      (h : Holds s' .nil (occupied.insert nodeAddr (i, b)) spare) :
      Granted s' size free occupied spare (some b.addr)
  | part (i j : Nat) (b : Header) (rest : List Nat) (hfree : free = NodeTree.leaf (i, b))
      (hspare : spare = j :: rest) (hsize : size < b.size)
      (h : Holds s' (NodeTree.leaf (j, ⟨b.addr + size, b.size - size, false⟩))
        (occupied.insert nodeAddr (i, { b with size := size })) rest) :
      Granted s' size free occupied spare (some b.addr)

/-- The same for a state whose trees and spare list have all the tree nodes. -/
inductive Allocated (cfg : Config) (s' : LargeAllocator) (size : Nat) (free occupied : BlockTree)
    (spare : List Nat) : Option Nat → Prop where
  | failed (h : Shape cfg s' free occupied spare) :
      Allocated cfg s' size free occupied spare none
  | whole (i : Nat) (b : Header) (hfree : free = NodeTree.leaf (i, b)) (hsize : b.size = size)
      (h : Shape cfg s' .nil (occupied.insert nodeAddr (i, b)) spare) :
      Allocated cfg s' size free occupied spare (some b.addr)
  | part (i j : Nat) (b : Header) (rest : List Nat) (hfree : free = NodeTree.leaf (i, b))
      (hspare : spare = j :: rest) (hsize : size < b.size)
      (h : Shape cfg s' (NodeTree.leaf (j, ⟨b.addr + size, b.size - size, false⟩))
        (occupied.insert nodeAddr (i, { b with size := size })) rest) :
      Allocated cfg s' size free occupied spare (some b.addr)

theorem coalesce_nil (spare : List Nat) (x : Nat × Header) :
    coalesce .nil spare x = (NodeTree.leaf x, spare) := by
  simp [coalesce, NodeTree.split, coalesceLeft, coalesceRight, NodeTree.rightmost,
    NodeTree.leftmost, NodeTree.merge, NodeTree.merge_nil]

/-- A node without children goes into an empty free tree. -/
theorem insertTreap_none {x : Nat × Header} (hx : s.nodes x.1 = ⟨x.2, none, none⟩)
    (hs : Spare s.nodes s.treenodeListHead spare) (hxs : x.1 ∉ spare) (hf : 1 < fuel) :
    ∃ s', insertTreap fuel s none (some x.1) = some (s', some x.1) ∧
      Repr s'.nodes (some x.1) (NodeTree.leaf x) ∧ Spare s'.nodes s'.treenodeListHead spare ∧
      Within s s' [x.1] := by
  have h : Around s none .nil spare x :=
    ⟨rfl, hx, hs, List.nodup_cons.mpr ⟨hxs, hs.list.nodup⟩⟩
  obtain ⟨s', p', hrun, hrep, hspare, hwithin⟩ := insertTreap_repr h (by simpa [NodeTree.size])
  rw [coalesce_nil] at hrep hspare
  have hroot : p' = some x.1 := hrep.1
  subst hroot
  exact ⟨s', hrun, hrep, hspare, hwithin⟩

/-- `remove_treap` of a root without children. -/
theorem removeTreap_leaf {nodes : Nodes} {i : Nat} {b : Header} (h : nodes i = ⟨b, none, none⟩)
    (hf : 1 < fuel) :
    removeTreap fuel nodes (some i) b.addr = some (nodes, none, some i) := by
  obtain ⟨fuel, rfl⟩ := Nat.exists_eq_add_of_lt hf
  rw [show 1 + fuel + 1 = fuel + 1 + 1 by omega, removeTreap, h, if_pos rfl]
  rfl

theorem ids_insert (x : Nat × Header) (t : BlockTree) :
    (BlockTree.ids (t.insert nodeAddr x)).Perm (x.1 :: t.ids) :=
  (NodeTree.inorder_insert_perm nodeAddr x t).map Prod.fst

/-- The node `i` goes to the occupied tree, whole or with the rest cut off. -/
theorem occupy_granted {i : Nat} {b : Header} {size : Nat}
    (hi : s.nodes i = ⟨b, none, none⟩) (ho : Repr s.nodes s.occupiedRoot occupied)
    (hs : Spare s.nodes s.treenodeListHead spare) (hfree : s.freeRoot = none)
    (hn : (occupied.ids ++ (i :: spare)).Nodup) (hfit : size ≤ b.size)
    (hf : occupied.size + 1 < fuel) :
    ∃ s' r, occupy fuel s i size = some (s', r) ∧
      Granted s' size (NodeTree.leaf (i, b)) occupied spare r := by
  have hmid : (i :: (occupied.ids ++ spare)).Nodup := List.perm_middle.nodup_iff.mp hn
  obtain ⟨hio, hnos⟩ := List.nodup_cons.mp hmid
  obtain ⟨hno, hns, hd⟩ := List.nodup_append'.mp hnos
  rw [List.mem_append, not_or] at hio
  have hnodup (c : Header) : (BlockTree.ids (occupied.insert nodeAddr (i, c)) ++ spare).Nodup :=
    (((ids_insert (i, c) occupied).append_right spare).nodup_iff).mpr hmid
  rw [occupy, hi]
  by_cases hsize : b.size = size
  · obtain ⟨nodes', p', hrun, hrep, hsame⟩ := insertBst_repr (x := (i, b)) ho hi
      (List.nodup_cons.mpr ⟨hio.1, hno⟩) (by omega : occupied.size < fuel)
    refine ⟨{ s with nodes := nodes', occupiedRoot := p' }, _, ?_,
      .whole i b rfl hsize ⟨?_, hrep, ?_, hnodup b⟩⟩
    · simp only [if_pos hsize, hrun, Option.bind_eq_bind, Option.bind_some]
    · exact hfree
    · exact hs.frame hsame (List.disjoint_symm hd)
  · simp only [if_neg hsize]
    cases spare with
    | nil =>
      have hhead : s.treenodeListHead = none := hs.list
      obtain ⟨s', hrun, hrep, hspare, hwithin⟩ :=
        insertTreap_none (x := (i, b)) hi hs (by simp) (by omega : 1 < fuel)
      refine ⟨{ s' with freeRoot := some i }, none, ?_, .failed ⟨hrep, ?_, hspare, hn⟩⟩
      · simp only [getNewTreeNode, hhead, hfree, hrun, Option.bind_eq_bind, Option.bind_some]
      · rw [show ({ s' with freeRoot := some i } : LargeAllocator).occupiedRoot = _ from
          hwithin.occupiedRoot]
        exact ho.frame hwithin.nodes (by simpa using hio.1)
    | cons j rest =>
      have hjo : j ∉ occupied.ids := fun hin => hd hin List.mem_cons_self
      obtain ⟨s₁, hget, hsplit⟩ :=
        splitOff_repr hs hio.2 { b with size := size } ⟨b.addr + size, b.size - size, false⟩
      rw [List.mem_cons, not_or] at hio
      generalize hset : setBlock (setBlock s₁.nodes j ⟨b.addr + size, b.size - size, false⟩) i
        { b with size := size } = nodes₁ at *
      have hi₁ : nodes₁ i = ⟨{ b with size := size }, none, none⟩ := by rw [hsplit.kept, hi]
      obtain ⟨nodes₂, p₂, hrun₂, hrep₂, hsame₂⟩ :=
        insertBst_repr (x := (i, { b with size := size }))
          (ho.frame hsplit.same (disjoint_pair hio.1 hjo)) hi₁ (List.nodup_cons.mpr ⟨hio.1, hno⟩)
          (by omega : occupied.size < fuel)
      have hspare₂ : Spare nodes₂ s₁.treenodeListHead rest :=
        hsplit.spares.frame hsame₂ fun k hk hko => hd hko (List.mem_cons_of_mem _ hk)
      obtain ⟨s', hrun₃, hrep₃, hspare₃, hw₃⟩ := insertTreap_none
        (s := { s₁ with nodes := nodes₂, occupiedRoot := p₂ })
        (x := (j, ⟨b.addr + size, b.size - size, false⟩))
        ((hsame₂ j hjo).trans hsplit.new) hspare₂ (List.nodup_cons.mp hns).1 (by omega : 1 < fuel)
      rw [hsplit.freeRoot, hfree] at hrun₃
      have hjm : j ∉ BlockTree.ids (occupied.insert nodeAddr (i, { b with size := size })) := by
        rw [(ids_insert _ _).mem_iff, List.mem_cons, not_or]
        exact ⟨fun he => hio.2.1 he.symm, hjo⟩
      refine ⟨{ s' with freeRoot := some j }, some b.addr, ?_,
        .part i j b rest rfl rfl (by omega) ⟨hrep₃, ?_, hspare₃, hnodup _⟩⟩
      · simp only [hget, hsplit.zero, hset, hsplit.occupiedRoot, hrun₂, hsplit.freeRoot, hfree,
          hrun₃, Option.bind_eq_bind, Option.bind_some]
      · rw [show ({ s' with freeRoot := some j } : LargeAllocator).occupiedRoot = p₂ from
          hw₃.occupiedRoot]
        exact hrep₂.frame hw₃.nodes (by simpa using hjm)

/-- An allocation ends; what it does when the node it takes has no children. -/
theorem allocateLargeObject_granted (h : Holds s free occupied spare) (n : Nat)
    (hfit : FitsChildless s (getSizeWithAlignment n)) (hf : occupied.size + 1 < fuel) :
    ∃ s' r, allocateLargeObject fuel s n = some (s', r) ∧
      Granted s' (getSizeWithAlignment n) free occupied spare r := by
  rw [allocateLargeObject]
  cases free with
  | nil =>
    have hroot : s.freeRoot = none := h.freeTree
    exact ⟨s, none, by simp only [hroot, firstFitSearch], .failed h⟩
  | node l v r =>
    obtain ⟨hroot, hb, hl, hr⟩ := h.freeTree
    by_cases hsize : getSizeWithAlignment n ≤ v.2.size
    · have hfound : firstFitSearch s.nodes s.freeRoot (getSizeWithAlignment n) = some v.1 := by
        simp only [firstFitSearch, hroot, hb, if_pos hsize]
      obtain ⟨hleft, hright⟩ := hfit v.1 hfound
      rw [hleft] at hl
      rw [hright] at hr
      have hlnil := hl.root_eq.mp rfl
      have hrnil := hr.root_eq.mp rfl
      subst hlnil hrnil
      have hnode : s.nodes v.1 = ⟨v.2, none, none⟩ :=
        TreeNode.ext hb hleft hright
      have hremove := removeTreap_leaf hnode (by omega : 1 < fuel)
      obtain ⟨s', r, hrun, hall⟩ := occupy_granted (s := { s with freeRoot := none }) hnode
        h.occupiedTree h.spares rfl h.nodup hsize hf
      refine ⟨s', r, ?_, hall⟩
      simp only [hfound, hb]
      simp only [hroot, hremove, Option.bind_eq_bind, Option.bind_some, hrun]
    · refine ⟨s, none, ?_, .failed h⟩
      simp only [firstFitSearch, hroot, hb, if_neg hsize]

/-- The tree nodes that a call takes from one place are in another one afterwards. -/
theorem allocateLargeObject_repr (h : Shape cfg s free occupied spare) (n : Nat)
    (hfit : FitsChildless s (getSizeWithAlignment n)) (hf : cfg.treenodeCount + 1 < fuel) :
    ∃ s' r, allocateLargeObject fuel s n = some (s', r) ∧
      Allocated cfg s' (getSizeWithAlignment n) free occupied spare r := by
  have hlen := h.length
  obtain ⟨s', r, hrun, hg⟩ := allocateLargeObject_granted h.holds n hfit
    (by omega : occupied.size + 1 < fuel)
  refine ⟨s', r, hrun, ?_⟩
  cases hg with
  | failed hs => exact .failed ⟨hs.freeTree, hs.occupiedTree, hs.spares, h.ids⟩
  | whole i b hfree hsize hs =>
    subst hfree
    refine .whole i b rfl hsize ⟨hs.freeTree, hs.occupiedTree, hs.spares, ?_⟩
    exact ((ids_insert _ _).append_right _).trans (List.perm_middle.symm.trans h.ids)
  | part i j b rest hfree hspare hsize hs =>
    subst hfree hspare
    refine .part i j b rest rfl rfl hsize ⟨hs.freeTree, hs.occupiedTree, hs.spares, ?_⟩
    exact ((ids_insert _ _).append_right _).trans (List.perm_middle.symm.trans h.ids)

end States

theorem treenodeCount_pos (cfg : Config) : 2 ≤ cfg.treenodeCount := by
  have hle := Nat.le_of_dvd cfg.heapSize_pos cfg.blockSize_dvd
  rw [Config.treenodeCount, show getSizeWithAlignment (maxObjectSize + 1) = 2016 from rfl,
    Nat.le_div_iff_mul_le (by omega)]
  rw [blockSize] at hle
  omega

/-- The nodes from `k` on are linked in order. -/
theorem isList_range (cfg : Config) (next : Nat → Option Nat) (k m : Nat)
    (hm : k + m = cfg.treenodeCount)
    (hnext : ∀ i, k ≤ i → next i = if i ≠ cfg.treenodeCount - 1 then some (i + 1) else none) :
    IsList next (if m = 0 then none else some k) (List.range' k m) := by
  induction m generalizing k with
  | zero => rfl
  | succ m ih =>
    refine ⟨rfl, ?_⟩
    rw [hnext k le_rfl]
    have hlast : (if k ≠ cfg.treenodeCount - 1 then some (k + 1) else none) =
        if m = 0 then none else some (k + 1) := by
      by_cases h0 : m = 0
      · rw [if_pos h0, if_neg (by omega)]
      · rw [if_neg h0, if_pos (by omega)]
    rw [hlast]
    exact ih (k + 1) (by omega) fun i hi => hnext i (by omega)

theorem init_shape (cfg : Config) :
    Shape cfg (initLargeAllocator cfg)
      (NodeTree.leaf (0, ⟨cfg.largeStart, cfg.heapSize, false⟩)) .nil
      (List.range' 1 (cfg.treenodeCount - 1)) := by
  have hcount := treenodeCount_pos cfg
  refine ⟨?_, rfl, ⟨?_, fun i hi => ?_⟩, ?_⟩
  · exact repr_leaf (by simp [initLargeAllocator, getNewTreeNode])
  · have hhead : (initLargeAllocator cfg).treenodeListHead =
        if cfg.treenodeCount - 1 = 0 then none else some 1 := by
      rw [if_neg (by omega)]
      simp only [initLargeAllocator, getNewTreeNode]
      rw [if_pos (by omega)]
    rw [hhead]
    refine isList_range cfg _ 1 _ (by omega) fun i hi => ?_
    have hi0 : i ≠ 0 := by omega
    simp only [initLargeAllocator, getNewTreeNode, detach, Function.update_of_ne hi0]
  · have hi0 : i ≠ 0 := by
      have := (List.mem_range'_1.mp hi).1
      omega
    simp only [initLargeAllocator, getNewTreeNode, detach, Function.update_of_ne hi0]
  · rw [List.range_eq_range']
    have hsplit : List.range' 0 cfg.treenodeCount = 0 :: List.range' 1 (cfg.treenodeCount - 1) := by
      obtain ⟨m, hm⟩ := Nat.exists_eq_add_of_le hcount
      rw [hm, show 2 + m = m + 1 + 1 by omega, List.range'_succ]
      rfl
    rw [hsplit]
    exact List.Perm.refl _

end GarbageCollector
