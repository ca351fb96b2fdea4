import GarbageCollector.SharedChildren
import GarbageCollector.LargeSweep

/-!
# `allocate_large_object` on any two trees

A call that takes a free node without children moves its block, whole or in part, from the free
tree to the occupied tree, or gives it back. A free node with children takes them with it: then
the trees share nodes after a success, and the free tree has a cycle after a failure.
-/

namespace GarbageCollector.LargeAllocation

open GarbageCollector BinaryTree LinkedList LargeTiling LargeSweep

/-- What a successful call is for: `size` bytes at `r` move from the free tree to the occupied
tree, and nothing else changes. -/
structure Took (s' : LargeAllocator) (free occupied : BlockTree) (r size : Nat)
    (free' occupied' : BlockTree) : Prop where
  freeTree : Repr s'.nodes s'.freeRoot free'
  occupiedTree : Repr s'.nodes s'.occupiedRoot occupied'
  occupied_blocks : occupied'.extents.Perm ((r, size) :: occupied.extents)
  free_bytes : covered free'.blocks = covered free.blocks \ Set.Ico r (r + size)
  free_search : free'.SearchTree nodeAddr
  occupied_search : occupied'.SearchTree nodeAddr
  free_heap : free'.MaxHeap nodeSize
  apart : List.Disjoint free'.ids occupied'.ids

/-- What a failed call leaves: both trees with the blocks they had, and the same spare list. -/
structure Untouched (s' : LargeAllocator) (free occupied : BlockTree) (spare : List Nat)
    (free' occupied' : BlockTree) : Prop where
  freeTree : Repr s'.nodes s'.freeRoot free'
  occupiedTree : Repr s'.nodes s'.occupiedRoot occupied'
  free_blocks : free'.extents = free.extents
  occupied_blocks : occupied'.extents = occupied.extents
  free_search : free'.SearchTree nodeAddr
  occupied_search : occupied'.SearchTree nodeAddr
  free_heap : free'.MaxHeap nodeSize
  once : (free'.ids ++ occupied'.ids).Nodup
  spareList : IsList (fun i => (s'.nodes i).right) s'.treenodeListHead spare

section Childless

variable {cfg : Config} {s s' : LargeAllocator} {free occupied : BlockTree} {spare : List Nat}
  {size r : Nat}

theorem extents_insert (x : Nat × Header) (t : BlockTree) :
    (BlockTree.extents (t.insert nodeAddr x)).Perm ((x.2.addr, x.2.size) :: t.extents) :=
  (NodeTree.inorder_insert_perm nodeAddr x t).map _

theorem granted_took (hpos : 0 < size) (ht : Tiled cfg free occupied)
    (hg : Granted s' size free occupied spare (some r)) :
    ∃ free' occupied', Took s' free occupied r size free' occupied' := by
  generalize hres : some r = res at hg
  cases hg with
  | failed _ => cases hres
  | whole i b hfree hsize hs =>
    cases hres
    subst hfree hsize
    have htiled := ht.whole
    refine ⟨_, _, hs.freeTree, hs.occupiedTree, extents_insert _ _, ?_,
      htiled.isFree.spaced.searchTree, htiled.ordered.searchTree, htiled.isFree.heap,
      List.disjoint_symm hs.disjoint⟩
    rw [covered_leaf, show BlockTree.blocks (.nil : BlockTree) = [] from rfl, covered_nil]
    exact (Set.sdiff_self).symm
  | part i j b rest hfree hspare hlt hs =>
    cases hres
    subst hfree
    have htiled := ht.part (j := j) hpos hlt
    refine ⟨_, _, hs.freeTree, hs.occupiedTree, extents_insert _ _, ?_,
      htiled.isFree.spaced.searchTree, htiled.ordered.searchTree, htiled.isFree.heap,
      List.disjoint_symm hs.disjoint⟩
    rw [covered_leaf, covered_leaf]
    ext y
    simp only [Set.mem_Ico, Set.mem_sdiff, Header.stop]
    omega

theorem granted_untouched (ht : Tiled cfg free occupied)
    (hg : Granted s' size free occupied spare none) :
    ∃ free' occupied', Untouched s' free occupied spare free' occupied' := by
  generalize hres : none = res at hg
  cases hg with
  | failed hs =>
    refine ⟨free, occupied, hs.freeTree, hs.occupiedTree, rfl, rfl, ht.isFree.spaced.searchTree,
      ht.ordered.searchTree, ht.isFree.heap, ?_, hs.spares.list⟩
    have hn := hs.nodup
    rw [← List.append_assoc] at hn
    exact (List.perm_append_comm.nodup_iff).mp (List.nodup_append'.mp hn).1
  | whole i b hfree hsize hs => cases hres
  | part i j b rest hfree hspare hlt hs => cases hres

end Childless

/-- The node taken from the free tree is hung into the occupied tree with a child. -/
def HangsChild (s' : LargeAllocator) (occupied : BlockTree) (i : Nat) : Prop :=
  ∃ c, c ∉ i :: occupied.ids ∧ ∀ j, j ∈ c :: i :: occupied.ids → Below s'.nodes s'.occupiedRoot j

/-- Some free node is below its own left child. -/
def FreeCycle (s' : LargeAllocator) : Prop :=
  ∃ x, Below s'.nodes s'.freeRoot x ∧ Below s'.nodes (s'.nodes x).left x

section Children

variable {cfg : Config} {s s' : LargeAllocator} {free occupied l r : BlockTree}
  {spare : List Nat} {v : Nat × Header} {size fuel a : Nat}

theorem not_took_of_hangsChild {i : Nat} {free' occupied' : BlockTree}
    (hn : (i :: occupied.ids).Nodup) (h : HangsChild s' occupied i) :
    ¬ Took s' free occupied a size free' occupied' := by
  rintro ht
  obtain ⟨c, hc, hbelow⟩ := h
  have hsub : c :: i :: occupied.ids ⊆ occupied'.ids := fun j hj =>
    (below_iff ht.occupiedTree j).mp (hbelow j hj)
  have hlen := ((List.nodup_cons.mpr ⟨hc, hn⟩).subperm hsub).length_le
  have hext := ht.occupied_blocks.length_eq
  simp only [BlockTree.extents, List.length_map, List.length_cons, BlockTree.ids] at hlen hext
  omega

theorem not_untouched_of_freeCycle {free' occupied' : BlockTree} (h : FreeCycle s') :
    ¬ Untouched s' free occupied spare free' occupied' := by
  intro hu
  obtain ⟨x, hx, hcycle⟩ := h
  exact acyclic_left hu.freeTree (List.nodup_append'.mp hu.once).1
    ((below_iff hu.freeTree x).mp hx) hcycle

theorem between_of_tiled (ht : Tiled cfg (.node l v r) occupied)
    (hn : (BlockTree.ids (.node l v r)).Nodup) : LiesBetween l v r := by
  obtain ⟨hl, hr, hlv, hvr⟩ := NodeTree.searchTree_node.mp ht.isFree.spaced.searchTree
  obtain ⟨hsl, hsr, -, -⟩ := ht.isFree.heap
  refine ⟨hlv, hvr, fun w hw => ?_, fun w hw => ?_, hsl, hsr, hn⟩
  · exact spaced_no_touch ht.isFree.spaced (by simp [hw]) (by simp)
  · exact spaced_no_touch ht.isFree.spaced (by simp) (by simp [hw])

/-- A child of the node, which is a node of one of the two trees. -/
theorem exists_child (hleft : (s.nodes v.1).left = rootId l)
    (hright : (s.nodes v.1).right = rootId r)
    (hchild : l ≠ .nil ∨ r ≠ .nil) :
    ∃ c, c ∈ l.ids ++ r.ids ∧ ((s.nodes v.1).left = some c ∨ (s.nodes v.1).right = some c) := by
  rcases hchild with hne | hne
  · cases l with
    | nil => exact absurd rfl hne
    | node ll c lr => exact ⟨c.1, by simp, Or.inl hleft⟩
  · cases r with
    | nil => exact absurd rfl hne
    | node rl c rr => exact ⟨c.1, by simp, Or.inr hright⟩

theorem hangsChild_of {nodes : Nodes} {i c : Nat}
    (hbelow : ∀ j, j ∈ i :: occupied.ids → Below s'.nodes s'.occupiedRoot j)
    (hi : (s'.nodes i).left = (nodes i).left ∧ (s'.nodes i).right = (nodes i).right)
    (hc : (nodes i).left = some c ∨ (nodes i).right = some c) (hout : c ∉ i :: occupied.ids) :
    HangsChild s' occupied i := by
  refine ⟨c, hout, fun j hj => ?_⟩
  rcases List.mem_cons.mp hj with rfl | hj
  · apply (hbelow i List.mem_cons_self).trans
    rcases hc with hc | hc
    · apply Below.left
      rw [hi.1, hc]
      exact .here _
    · apply Below.right
      rw [hi.2, hc]
      exact .here _
  · exact hbelow j hj

/-- The children of a node of the free tree are not in the occupied one. -/
theorem child_outside {c : Nat} (hn : (occupied.ids ++ BlockTree.ids (.node l v r)).Nodup)
    (hc : c ∈ l.ids ++ r.ids) : c ∉ v.1 :: occupied.ids := by
  obtain ⟨-, hnt, hdo⟩ := List.nodup_append'.mp hn
  obtain ⟨-, -, hvl, hvr, -⟩ := nodup_ids_node.mp hnt
  rw [List.mem_cons, not_or]
  refine ⟨?_, fun hin => hdo hin (ids_children_subset hc)⟩
  rintro rfl
  exact (List.mem_append.mp hc).elim hvl hvr

theorem merge_subset :
    BlockTree.ids (NodeTree.merge nodeSize l r) ⊆ BlockTree.ids (.node l v r) := by
  rw [ids_merge]
  exact ids_children_subset

theorem not_mem_merge (hn : (BlockTree.ids (.node l v r)).Nodup) :
    v.1 ∉ BlockTree.ids (NodeTree.merge nodeSize l r) := by
  obtain ⟨-, -, hvl, hvr, -⟩ := nodup_ids_node.mp hn
  rw [ids_merge, List.mem_append, not_or]
  exact ⟨hvl, hvr⟩

theorem nodup_merge (hn : (BlockTree.ids (.node l v r)).Nodup) :
    (BlockTree.ids (NodeTree.merge nodeSize l r)).Nodup := by
  obtain ⟨hnl, hnr, -, -, hdlr⟩ := nodup_ids_node.mp hn
  rw [ids_merge]
  exact List.nodup_append'.mpr ⟨hnl, hnr, hdlr⟩

theorem size_merge : (NodeTree.merge nodeSize l r).size = l.size + r.size := by
  rw [← length_ids, ids_merge, List.length_append, length_ids, length_ids]

/-- A block of the right size goes to the occupied tree as a whole. -/
theorem occupy_exact {c : Nat} (hv : (s.nodes v.1).block = v.2) (hsize : v.2.size = size)
    (hptr : (s.nodes v.1).left = some c ∨ (s.nodes v.1).right = some c)
    (ho : Repr s.nodes s.occupiedRoot occupied) (hn : (v.1 :: occupied.ids).Nodup)
    (hout : c ∉ v.1 :: occupied.ids) (hf : occupied.size < fuel) :
    ∃ s', occupy fuel s v.1 size = some (s', some v.2.addr) ∧ HangsChild s' occupied v.1 := by
  obtain ⟨nodes', p', hrun, hsame, hbelow⟩ := insertBst_hangs ho hn hf
  refine ⟨{ s with nodes := nodes', occupiedRoot := p' }, ?_, ?_⟩
  · simp only [occupy, hv, if_pos hsize, hrun, Option.bind_eq_bind, Option.bind_some]
  · refine hangsChild_of (hbelow nodes' fun _ _ => rfl) ?_ hptr hout
    simp only [hsame v.1 (List.nodup_cons.mp hn).1, and_self]

/-- Without a node for the rest the block goes back to the free tree with its children. -/
theorem occupy_no_node (hb : LiesBetween l v r) (hv : (s.nodes v.1).block = v.2)
    (hleft : (s.nodes v.1).left = rootId l) (hright : (s.nodes v.1).right = rootId r)
    (hfree : Repr s.nodes s.freeRoot (NodeTree.merge nodeSize l r))
    (hhead : s.treenodeListHead = none) (hsize : v.2.size ≠ size) (hchild : l ≠ .nil ∨ r ≠ .nil)
    (hf : 2 * (l.size + r.size + 1) < fuel) :
    ∃ s', occupy fuel s v.1 size = some (s', none) ∧ FreeCycle s' := by
  obtain ⟨s', p', hrun, hcycle⟩ := insertTreap_cycle hb hv hfree hleft hright hchild
    (by omega : _ < fuel)
  refine ⟨{ s' with freeRoot := p' }, ?_, hcycle⟩
  simp only [occupy, hv, if_neg hsize, getNewTreeNode, hhead, hrun, Option.bind_eq_bind,
    Option.bind_some]

/-- A block that is split goes to the occupied tree with its children; the rest of it goes back to
the free tree. -/
theorem occupy_split {c j : Nat} {rest : List Nat} (hv : (s.nodes v.1).block = v.2)
    (hsize : v.2.size ≠ size)
    (hptr : (s.nodes v.1).left = some c ∨ (s.nodes v.1).right = some c)
    (hfree : Repr s.nodes s.freeRoot (NodeTree.merge nodeSize l r))
    (ho : Repr s.nodes s.occupiedRoot occupied)
    (hs : Spare s.nodes s.treenodeListHead (j :: rest))
    (hn : (occupied.ids ++ (BlockTree.ids (.node l v r) ++ j :: rest)).Nodup)
    (hout : c ∉ v.1 :: occupied.ids) (hf : 2 * (occupied.size + (l.size + r.size + 1)) < fuel) :
    ∃ s', occupy fuel s v.1 size = some (s', some v.2.addr) ∧ HangsChild s' occupied v.1 := by
  obtain ⟨hno, hnfs, hdo⟩ := List.nodup_append'.mp hn
  obtain ⟨hnt, hns, hds⟩ := List.nodup_append'.mp hnfs
  obtain ⟨hjrest, hnrest⟩ := List.nodup_cons.mp hns
  have hvt : v.1 ∈ BlockTree.ids (.node l v r) := by simp
  have hvo : v.1 ∉ occupied.ids := fun hin => hdo hin (List.mem_append_left _ hvt)
  have hvm := not_mem_merge hnt
  have hmsize : (NodeTree.merge nodeSize l r).size = l.size + r.size := size_merge
  have hjo : j ∉ occupied.ids := fun hin => hdo hin (List.mem_append_right _ List.mem_cons_self)
  have hjt : j ∉ BlockTree.ids (.node l v r) := fun hin => hds hin List.mem_cons_self
  have hjm : j ∉ BlockTree.ids (NodeTree.merge nodeSize l r) := fun hin => hjt (merge_subset hin)
  have hvj : v.1 ≠ j := fun he => hjt (he ▸ hvt)
  obtain ⟨s₁, hget, hsplit⟩ := splitOff_repr hs (hds hvt) { v.2 with size := size }
    ⟨v.2.addr + size, v.2.size - size, false⟩
  generalize hset : setBlock (setBlock s₁.nodes j ⟨v.2.addr + size, v.2.size - size, false⟩)
    v.1 { v.2 with size := size } = nodes₁ at *
  obtain ⟨nodes₂, p₂, hrun₂, hsame₂, hbelow⟩ := insertBst_hangs
    (ho.frame hsplit.same (disjoint_pair hvo hjo)) (List.nodup_cons.mpr ⟨hvo, hno⟩)
    (by omega : occupied.size < fuel)
  have hmo : List.Disjoint (BlockTree.ids (NodeTree.merge nodeSize l r)) occupied.ids :=
    fun i hi hio => hdo hio (List.mem_append_left _ (merge_subset hi))
  have haround : Around { s₁ with nodes := nodes₂, occupiedRoot := p₂ } s.freeRoot
      (NodeTree.merge nodeSize l r) rest (j, ⟨v.2.addr + size, v.2.size - size, false⟩) := by
    constructor
    · exact (hfree.frame hsplit.same (disjoint_pair hvm hjm)).frame hsame₂ hmo
    · exact (hsame₂ j hjo).trans hsplit.new
    · exact hsplit.spares.frame hsame₂ fun i hi hio =>
        hdo hio (List.mem_append_right _ (List.mem_cons_of_mem _ hi))
    · rw [List.nodup_cons, List.mem_append, not_or, List.nodup_append']
      exact ⟨⟨hjm, hjrest⟩, nodup_merge hnt, hnrest, fun i hi hir =>
        hds (merge_subset hi) (List.mem_cons_of_mem _ hir)⟩
  obtain ⟨s', p', hrun₃, -, -, hw₃⟩ := insertTreap_repr haround (show _ < fuel by omega)
  rw [hsplit.freeRoot] at hrun₃
  have hkept (i : Nat) (hi : i ∈ v.1 :: occupied.ids) : s'.nodes i = nodes₂ i := by
    apply hw₃.nodes
    rcases List.mem_cons.mp hi with rfl | hi
    · exact List.not_mem_cons_of_ne_of_not_mem hvj hvm
    · refine List.not_mem_cons_of_ne_of_not_mem ?_ fun hm => hmo hm hi
      rintro rfl
      exact hjo hi
  refine ⟨{ s' with freeRoot := p' }, ?_, ?_⟩
  · simp only [occupy, hv, if_neg hsize, hget, hsplit.zero, hset, hsplit.occupiedRoot, hrun₂,
      hsplit.freeRoot, hrun₃, Option.bind_eq_bind, Option.bind_some]
  · refine hangsChild_of ?_ ?_ hptr hout
    · have hroot : s'.occupiedRoot = p₂ := hw₃.occupiedRoot
      rw [show ({ s' with freeRoot := p' } : LargeAllocator).occupiedRoot = p₂ from hroot]
      exact hbelow s'.nodes hkept
    · rw [show ({ s' with freeRoot := p' } : LargeAllocator).nodes v.1 = nodes₁ v.1 from
        (hkept v.1 List.mem_cons_self).trans (hsame₂ v.1 hvo), hsplit.kept]
      exact ⟨rfl, rfl⟩

/-- The rest of a call that has taken a node with children out of the free tree. -/
theorem occupy_children (hb : LiesBetween l v r) (hv : (s.nodes v.1).block = v.2)
    (hleft : (s.nodes v.1).left = rootId l) (hright : (s.nodes v.1).right = rootId r)
    (hfree : Repr s.nodes s.freeRoot (NodeTree.merge nodeSize l r))
    (ho : Repr s.nodes s.occupiedRoot occupied) (hs : Spare s.nodes s.treenodeListHead spare)
    (hn : (occupied.ids ++ (BlockTree.ids (.node l v r) ++ spare)).Nodup)
    (hchild : l ≠ .nil ∨ r ≠ .nil)
    (hf : 2 * (occupied.size + (l.size + r.size + 1)) < fuel) :
    ∃ s' res, occupy fuel s v.1 size = some (s', res) ∧
      (∀ a, res = some a → HangsChild s' occupied v.1) ∧ (res = none → FreeCycle s') := by
  obtain ⟨c, hc, hptr⟩ := exists_child hleft hright hchild
  have hnot : (occupied.ids ++ BlockTree.ids (.node l v r)).Nodup := by
    rw [← List.append_assoc] at hn
    exact (List.nodup_append'.mp hn).1
  have hout : c ∉ v.1 :: occupied.ids := child_outside hnot hc
  obtain ⟨hno, -, hdo⟩ := List.nodup_append'.mp hnot
  have hvo : v.1 ∉ occupied.ids := fun hin => hdo hin (by simp)
  by_cases hsize : v.2.size = size
  · obtain ⟨s', hrun, hhangs⟩ := occupy_exact hv hsize hptr ho (List.nodup_cons.mpr ⟨hvo, hno⟩)
      hout (by omega : occupied.size < fuel)
    exact ⟨s', some v.2.addr, hrun, fun _ _ => hhangs, fun h => nomatch h⟩
  · cases spare with
    | nil =>
      obtain ⟨s', hrun, hcycle⟩ := occupy_no_node hb hv hleft hright hfree hs.list hsize hchild
        (by omega : 2 * (l.size + r.size + 1) < fuel)
      exact ⟨s', none, hrun, fun _ h => (nomatch h), fun _ => hcycle⟩
    | cons j rest =>
      obtain ⟨s', hrun, hhangs⟩ := occupy_split hv hsize hptr hfree ho hs hn hout hf
      exact ⟨s', some v.2.addr, hrun, fun _ _ => hhangs, fun h => nomatch h⟩

theorem fitsChildless_iff (h : Repr s.nodes s.freeRoot (.node l v r)) :
    FitsChildless s size ↔ (size ≤ v.2.size → l = .nil ∧ r = .nil) := by
  obtain ⟨hroot, hv, hl, hr⟩ := h
  rw [← hl.root_eq, ← hr.root_eq]
  constructor
  · intro hfit hsize
    apply hfit
    simp only [firstFitSearch, hroot, hv, if_pos hsize]
  · intro hnil i hi
    simp only [firstFitSearch, hroot, hv] at hi
    split at hi
    · cases hi
      exact hnil ‹_›
    · cases hi

/-- A call that finds a free root with children leaves a state that is no result of an
allocation. -/
theorem allocateLargeObject_children (hb : LiesBetween l v r)
    (h : Holds s (.node l v r) occupied spare) (n : Nat)
    (hfit : ¬ FitsChildless s (getSizeWithAlignment n))
    (hf : 2 * (occupied.size + (l.size + r.size + 1)) < fuel) :
    ∃ s' res, allocateLargeObject fuel s n = some (s', res) ∧
      (∀ a, res = some a → HangsChild s' occupied v.1) ∧ (res = none → FreeCycle s') := by
  obtain ⟨hroot, hv, hl, hr⟩ := h.freeTree
  obtain ⟨hno, hnfs, hdo⟩ := List.nodup_append'.mp h.nodup
  obtain ⟨hnt, hns, hds⟩ := List.nodup_append'.mp hnfs
  obtain ⟨hnl, hnr, hvl, hvr, hdlr⟩ := nodup_ids_node.mp hnt
  rw [fitsChildless_iff h.freeTree, Classical.not_imp, not_and_or] at hfit
  obtain ⟨hsize, hchild⟩ := hfit
  have hsub : l.ids ++ r.ids ⊆ BlockTree.ids (.node l v r) := ids_children_subset
  obtain ⟨fuel, rfl⟩ := Nat.exists_eq_add_one_of_ne_zero (Nat.ne_of_gt (Nat.zero_lt_of_lt hf))
  obtain ⟨nodes', p', hmerge, hrep, hsame⟩ := mergeTreap_repr hl hr
    (List.nodup_append'.mpr ⟨hnl, hnr, hdlr⟩) (by omega : l.size + r.size < fuel)
  have hv' : nodes' v.1 = s.nodes v.1 := by
    apply hsame
    rw [List.mem_append, not_or]
    exact ⟨hvl, hvr⟩
  obtain ⟨s', res, hrun, hsome, hnone⟩ := occupy_children
    (s := { s with nodes := nodes', freeRoot := p' }) hb
    ((congrArg TreeNode.block hv').trans hv)
    ((congrArg TreeNode.left hv').trans hl.rootId_eq)
    ((congrArg TreeNode.right hv').trans hr.rootId_eq) hrep
    (h.occupiedTree.frame hsame fun i hi hin => hdo hi (List.mem_append_left _ (hsub hin)))
    (h.spares.frame hsame fun i hi hin => hds (hsub hin) hi) h.nodup hchild hf
  refine ⟨s', res, ?_, hsome, hnone⟩
  have hfound : firstFitSearch s.nodes s.freeRoot (getSizeWithAlignment n) = some v.1 := by
    simp only [firstFitSearch, hroot, hv, if_pos hsize]
  have hremove : removeTreap (fuel + 1) s.nodes s.freeRoot v.2.addr =
      some (nodes', p', some v.1) := by
    simp only [hroot, removeTreap, hv, if_true, hmerge, Option.map_some]
  simp only [allocateLargeObject, hfound, hv, hremove, Option.bind_eq_bind, Option.bind_some]
  exact hrun

end Children

section Outcome

variable {cfg : Config} {s : LargeAllocator} {free occupied : BlockTree} {spare : List Nat}
  {fuel : Nat}

theorem allocateLargeObject_outcome (ht : Tiles cfg free occupied)
    (h : Holds s free occupied spare) (n : Nat)
    (hf : 2 * (occupied.size + free.size) + 1 < fuel) :
    ∃ s' res, allocateLargeObject fuel s n = some (s', res) ∧
      (FitsChildless s (getSizeWithAlignment n) →
        Granted s' (getSizeWithAlignment n) free occupied spare res) ∧
      (¬ FitsChildless s (getSizeWithAlignment n) →
        (∀ r, res = some r → ∃ i, (i :: occupied.ids).Nodup ∧ HangsChild s' occupied i) ∧
        (res = none → FreeCycle s')) := by
  by_cases hfit : FitsChildless s (getSizeWithAlignment n)
  · obtain ⟨s', res, hrun, hg⟩ := allocateLargeObject_granted h n hfit
      (by omega : occupied.size + 1 < fuel)
    exact ⟨s', res, hrun, fun _ => hg, fun hno => absurd hfit hno⟩
  · obtain ⟨hno, hnfs, hdo⟩ := List.nodup_append'.mp h.nodup
    have hnf := (List.nodup_append'.mp hnfs).1
    cases free with
    | nil =>
      refine absurd (fun i hi => ?_) hfit
      have hroot : s.freeRoot = none := h.freeTree
      simp only [firstFitSearch, hroot] at hi
      cases hi
    | node l v r =>
      have hvo : v.1 ∉ occupied.ids := fun hin => hdo hin (by simp)
      rw [NodeTree.size] at hf
      obtain ⟨s', res, hrun, hsome, hnone⟩ := allocateLargeObject_children
        (between_of_tiled (ht.tiled h.disjoint) hnf) h n hfit (show _ < fuel by omega)
      refine ⟨s', res, hrun, fun hyes => absurd hyes hfit, fun _ => ⟨fun a ha => ?_, hnone⟩⟩
      exact ⟨v.1, List.nodup_cons.mpr ⟨hvo, hno⟩, hsome a ha⟩

end Outcome

/-- After three allocations of 2016 bytes and a sweep that frees the first. -/
def firstFreed : LargeAllocator where
  nodes := fun i =>
    match i with
    | 0 => ⟨⟨16384, 2016, false⟩, none, none⟩
    | 1 => ⟨⟨18400, 2016, false⟩, none, some 2⟩
    | 2 => ⟨⟨20416, 2016, false⟩, none, none⟩
    | 3 => ⟨⟨22432, 2144, false⟩, some 0, none⟩
    | _ => ⟨⟨0, 0, false⟩, none, none⟩
  treenodeListHead := none
  freeRoot := some 3
  occupiedRoot := some 1

def firstFreedFree : BlockTree :=
  .node (NodeTree.leaf (0, ⟨16384, 2016, false⟩)) (3, ⟨22432, 2144, false⟩) .nil

def firstFreedOccupied : BlockTree :=
  .node .nil (1, ⟨18400, 2016, false⟩) (NodeTree.leaf (2, ⟨20416, 2016, false⟩))

theorem firstFreed_holds : Holds firstFreed firstFreedFree firstFreedOccupied [] := by
  refine ⟨⟨rfl, rfl, ⟨rfl, rfl, rfl, rfl⟩, rfl⟩, ⟨rfl, rfl, rfl, ⟨rfl, rfl, rfl, rfl⟩⟩,
    ⟨rfl, fun i hi => nomatch hi⟩, ?_⟩
  simp [firstFreedFree, firstFreedOccupied, BlockTree.ids]

theorem mem_firstFreed (v : Nat × Header) :
    v ∈ firstFreedFree.inorder ++ firstFreedOccupied.inorder ↔
      v ∈ [(0, ⟨16384, 2016, false⟩), (1, ⟨18400, 2016, false⟩), (2, ⟨20416, 2016, false⟩),
        (3, ⟨22432, 2144, false⟩)] := by
  simp only [firstFreedFree, firstFreedOccupied, NodeTree.inorder_nil, NodeTree.inorder_node,
    NodeTree.inorder_leaf, List.mem_append, List.mem_cons, List.not_mem_nil, or_false, false_or]
  tauto

theorem firstFreed_tiles : Tiles twoBlocks firstFreedFree firstFreedOccupied := by
  constructor
  · simp [firstFreedFree, NodeTree.SearchTree, nodeAddr]
  · simp [firstFreedFree, NodeTree.MaxHeap, NodeTree.leaf, nodeSize]
  · simp [firstFreedFree, Header.stop]
  · simp [firstFreedOccupied, NodeTree.SearchTree, nodeAddr]
  · intro v hv
    simp only [mem_firstFreed, List.mem_cons, List.not_mem_nil, or_false] at hv
    rcases hv with rfl | rfl | rfl | rfl <;> simp [Header.stop, twoBlocks, Config.largeEnd]
  · intro y hlo hhi
    simp only [twoBlocks, Config.largeEnd] at hlo hhi
    simp only [mem_firstFreed]
    have hord : Ordered [(0, ⟨16384, 2016, false⟩), (1, ⟨18400, 2016, false⟩),
        (2, ⟨20416, 2016, false⟩), (3, ⟨22432, 2144, false⟩)] := by
      simp [Ordered, Header.stop]
    obtain ⟨v, hv, hyv⟩ : ∃ v : Nat × Header, v ∈ [(0, (⟨16384, 2016, false⟩ : Header)),
        (1, ⟨18400, 2016, false⟩), (2, ⟨20416, 2016, false⟩), (3, ⟨22432, 2144, false⟩)] ∧
        v.2.addr ≤ y ∧ y < v.2.stop := by
      simp only [List.mem_cons, List.not_mem_nil, or_false, or_and_right, exists_or,
        exists_eq_left, Header.stop]
      omega
    exact ⟨v, ⟨hv, hyv⟩, fun w hw => ordered_unique hord hw.1 hv hw.2 hyv⟩

theorem firstFreed_children {n : Nat} (hn : getSizeWithAlignment n ≤ 2144) :
    ¬ FitsChildless firstFreed (getSizeWithAlignment n) := by
  rw [fitsChildless_iff firstFreed_holds.freeTree]
  intro hfit
  cases (hfit hn).1

section Outcome

variable {cfg : Config} {s : LargeAllocator} {free occupied : BlockTree} {spare : List Nat}
  {fuel : Nat}

/-- A success takes the returned range, and nothing else, from the free tree to the occupied tree
exactly when the free root it found has no children. -/
theorem success_took_iff (ht : Tiles cfg free occupied) (h : Holds s free occupied spare)
    (n : Nat) (hn : maxObjectSize < n) (hf : 2 * (occupied.size + free.size) + 1 < fuel) :
    ∃ s' res, allocateLargeObject fuel s n = some (s', res) ∧
      ∀ r, res = some r →
        ((∃ free' occupied', Took s' free occupied r (getSizeWithAlignment n) free' occupied') ↔
          FitsChildless s (getSizeWithAlignment n)) := by
  obtain ⟨s', res, hrun, hyes, hno⟩ := allocateLargeObject_outcome ht h n hf
  refine ⟨s', res, hrun, fun r hr => ⟨?_, fun hfit => ?_⟩⟩
  · rintro ⟨free', occupied', htook⟩
    by_contra hfit
    obtain ⟨i, hn', hhangs⟩ := (hno hfit).1 r hr
    exact not_took_of_hangsChild hn' hhangs htook
  · subst hr
    have hpos : 0 < getSizeWithAlignment n := by
      have hle := le_getSizeWithAlignment n
      omega
    exact granted_took hpos (ht.tiled h.disjoint) (hyes hfit)

theorem success_took_iff_children_hung :
    ∃ s' res, allocateLargeObject 10 firstFreed 2144 = some (s', res) ∧ res = some 22432 ∧
      ¬ ∃ free' occupied',
        Took s' firstFreedFree firstFreedOccupied 22432 2144 free' occupied' := by
  obtain ⟨s', res, hrun, hiff⟩ := success_took_iff firstFreed_tiles firstFreed_holds 2144
    (by decide) (show _ < 10 by decide)
  have hres : (allocateLargeObject 10 firstFreed 2144).map Prod.snd = some (some 22432) := by
    decide +kernel
  rw [hrun, Option.map_some, Option.some_inj] at hres
  exact ⟨s', res, hrun, hres, fun htook =>
    firstFreed_children (n := 2144) (by decide) ((hiff _ hres).mp htook)⟩

/-- A request for all of the free root takes its left child along to the occupied tree. -/
theorem child_occupied :
    ¬ ∀ (cfg : Config) (s : LargeAllocator) (free occupied : BlockTree) (spare : List Nat)
        (n fuel : Nat), Tiles cfg free occupied → Holds s free occupied spare →
      maxObjectSize < n → n ≤ cfg.heapSize → 2 * (occupied.size + free.size) + 1 < fuel →
      ∃ s' res, allocateLargeObject fuel s n = some (s', res) ∧
        ∀ r, res = some r →
          ∃ free' occupied', Took s' free occupied r (getSizeWithAlignment n) free' occupied' := by
  intro h
  obtain ⟨s', res, hrun, htook⟩ := h twoBlocks firstFreed firstFreedFree firstFreedOccupied []
    2144 10 firstFreed_tiles firstFreed_holds (by decide) (by decide) (by decide)
  have hres : (allocateLargeObject 10 firstFreed 2144).map Prod.snd = some (some 22432) := by
    decide +kernel
  rw [hrun, Option.map_some, Option.some_inj] at hres
  obtain ⟨s'', res', hrun', -, hno⟩ := allocateLargeObject_outcome firstFreed_tiles
    firstFreed_holds 2144 (show _ < 10 by decide)
  cases hrun.symm.trans hrun'
  obtain ⟨i, hn, hhangs⟩ := (hno (firstFreed_children (by decide))).1 _ hres
  obtain ⟨free', occupied', ht⟩ := htook _ hres
  exact not_took_of_hangsChild hn hhangs ht

/-- A failure leaves both trees as they were exactly when no free root was found or the one found
has no children. -/
theorem failure_untouched_iff (ht : Tiles cfg free occupied) (h : Holds s free occupied spare)
    (n : Nat) (hf : 2 * (occupied.size + free.size) + 1 < fuel) :
    ∃ s' res, allocateLargeObject fuel s n = some (s', res) ∧
      (res = none →
        ((∃ free' occupied', Untouched s' free occupied spare free' occupied') ↔
          FitsChildless s (getSizeWithAlignment n))) := by
  obtain ⟨s', res, hrun, hyes, hno⟩ := allocateLargeObject_outcome ht h n hf
  refine ⟨s', res, hrun, fun hr => ⟨?_, fun hfit => ?_⟩⟩
  · rintro ⟨free', occupied', hsame⟩
    by_contra hfit
    exact not_untouched_of_freeCycle ((hno hfit).2 hr) hsame
  · subst hr
    exact granted_untouched (ht.tiled h.disjoint) (hyes hfit)

theorem failure_untouched_iff_no_fit :
    ∃ s', allocateLargeObject 10 firstFreed 4000 = some (s', none) ∧
      ∃ free' occupied', Untouched s' firstFreedFree firstFreedOccupied [] free' occupied' := by
  obtain ⟨s', res, hrun, hiff⟩ := failure_untouched_iff firstFreed_tiles firstFreed_holds 4000
    (show _ < 10 by decide)
  have hres : (allocateLargeObject 10 firstFreed 4000).map Prod.snd = some none := by
    decide +kernel
  rw [hrun, Option.map_some, Option.some_inj] at hres
  subst hres
  refine ⟨s', hrun, (hiff rfl).mpr ?_⟩
  rw [fitsChildless_iff firstFreed_holds.freeTree]
  exact fun hle => absurd hle (by decide)

/-- A request for a part of the free root finds no spare node, and the root goes back into the
free tree with its old left child, which is then below itself. -/
theorem child_below_itself :
    ¬ ∀ (cfg : Config) (s : LargeAllocator) (free occupied : BlockTree) (spare : List Nat)
        (n fuel : Nat), Tiles cfg free occupied → Holds s free occupied spare →
      2 * (occupied.size + free.size) + 1 < fuel →
      ∃ s' res, allocateLargeObject fuel s n = some (s', res) ∧
        (res = none →
          ∃ free' occupied', Untouched s' free occupied spare free' occupied') := by
  intro h
  obtain ⟨s', res, hrun, hsame⟩ := h twoBlocks firstFreed firstFreedFree firstFreedOccupied []
    2016 10 firstFreed_tiles firstFreed_holds (by decide)
  have hres : (allocateLargeObject 10 firstFreed 2016).map Prod.snd = some none := by
    decide +kernel
  rw [hrun, Option.map_some, Option.some_inj] at hres
  obtain ⟨s'', res', hrun', -, hno⟩ := allocateLargeObject_outcome firstFreed_tiles
    firstFreed_holds 2016 (show _ < 10 by decide)
  cases hrun.symm.trans hrun'
  obtain ⟨free', occupied', hu⟩ := hsame hres
  exact not_untouched_of_freeCycle ((hno (firstFreed_children (by decide))).2 hres) hu

end Outcome

end GarbageCollector.LargeAllocation
