import GarbageCollector.LargeAllocation

/-!
# When a large allocation fails

`first_fit_search` finds a free block whenever one fits, because the root of the free tree is the
largest. The call still fails if the block has to be split and no spare node is left for the rest.
-/

namespace GarbageCollector.NodePool

open GarbageCollector BinaryTree LinkedList LargeTiling LargeSweep LargeAllocation

/-- A block that is found fits exactly, or there is a node for the rest of it. -/
def PoolSuffices (s : LargeAllocator) (size : Nat) : Prop :=
  ∀ i, firstFitSearch s.nodes s.freeRoot size = some i →
    (s.nodes i).block.size = size ∨ s.treenodeListHead ≠ none

section Calls

variable {cfg : Config} {s s' : LargeAllocator} {free occupied : BlockTree} {spare : List Nat}
  {res : Option Nat} {n size node fuel : Nat}

theorem occupy_none_iff (hrun : occupy fuel s node size = some (s', res)) :
    res = none ↔ (s.nodes node).block.size ≠ size ∧ s.treenodeListHead = none := by
  by_cases hsize : (s.nodes node).block.size = size
  · simp only [occupy, if_pos hsize, Option.bind_eq_bind, Option.bind_eq_some_iff,
      Option.some.injEq, Prod.mk.injEq] at hrun
    obtain ⟨-, -, -, rfl⟩ := hrun
    simp [hsize]
  · cases hhead : s.treenodeListHead with
    | none =>
      simp only [occupy, if_neg hsize, getNewTreeNode, hhead, Option.bind_eq_bind,
        Option.bind_eq_some_iff, Option.some.injEq, Prod.mk.injEq] at hrun
      obtain ⟨-, -, -, rfl⟩ := hrun
      simp [hsize]
    | some j =>
      simp only [occupy, if_neg hsize, getNewTreeNode, hhead, Option.bind_eq_bind,
        Option.bind_eq_some_iff, Option.some.injEq, Prod.mk.injEq] at hrun
      obtain ⟨-, -, -, -, -, rfl⟩ := hrun
      simp

/-- The block of the root is still the same when the children are merged. -/
theorem removeTreap_root {nodes : Nodes} {p : Option Nat} {l r : BlockTree} {v : Nat × Header}
    (h : Repr nodes p (.node l v r)) (hn : (BlockTree.ids (.node l v r)).Nodup)
    (hf : l.size + r.size + 1 < fuel) :
    ∃ nodes' p', removeTreap fuel nodes p v.2.addr = some (nodes', p', some v.1) ∧
      (nodes' v.1).block = v.2 := by
  obtain ⟨rfl, hv, hl, hr⟩ := h
  obtain ⟨hnl, hnr, hvl, hvr, hd⟩ := nodup_ids_node.mp hn
  obtain ⟨fuel, rfl⟩ := Nat.exists_eq_add_one_of_ne_zero (Nat.ne_of_gt (Nat.zero_lt_of_lt hf))
  obtain ⟨nodes', p', hmerge, -, hsame⟩ := mergeTreap_repr hl hr
    (List.nodup_append'.mpr ⟨hnl, hnr, hd⟩) (by omega : l.size + r.size < fuel)
  refine ⟨nodes', p', ?_, ?_⟩
  · simp only [removeTreap, hv, if_true, hmerge, Option.map_some]
  · rw [hsame v.1, hv]
    rw [List.mem_append, not_or]
    exact ⟨hvl, hvr⟩

/-- A call fails if no block is found, or the one found is to be split without a spare node. -/
theorem allocateLargeObject_none_iff (h : Repr s.nodes s.freeRoot free) (hn : free.ids.Nodup)
    (hf : free.size < fuel) (hrun : allocateLargeObject fuel s n = some (s', res)) :
    res = none ↔ ∀ i, firstFitSearch s.nodes s.freeRoot (getSizeWithAlignment n) = some i →
      (s.nodes i).block.size ≠ getSizeWithAlignment n ∧ s.treenodeListHead = none := by
  cases hfound : firstFitSearch s.nodes s.freeRoot (getSizeWithAlignment n) with
  | none =>
    simp only [allocateLargeObject, hfound, Option.some.injEq, Prod.mk.injEq] at hrun
    simp [← hrun.2]
  | some i =>
    cases free with
    | nil =>
      have hroot : s.freeRoot = none := h
      simp [firstFitSearch, hroot] at hfound
    | node l v r =>
      have hi : i = v.1 := by
        simp only [firstFitSearch, h.1] at hfound
        split at hfound
        · exact (Option.some.inj hfound).symm
        · cases hfound
      subst hi
      obtain ⟨nodes', p', hremove, hblock⟩ := removeTreap_root h hn hf
      simp only [allocateLargeObject, hfound, h.2.1, hremove, Option.bind_eq_bind,
        Option.bind_some] at hrun
      rw [occupy_none_iff hrun]
      simp only [hblock, Option.some.injEq, forall_eq', h.2.1]

/-- Only the root is looked at, but it has the largest block. -/
theorem firstFitSearch_none_iff (h : Repr s.nodes s.freeRoot free) (hheap : free.MaxHeap nodeSize) :
    firstFitSearch s.nodes s.freeRoot size = none ↔ ∀ v, v ∈ free.inorder → v.2.size < size := by
  cases free with
  | nil =>
    have hroot : s.freeRoot = none := h
    simp [firstFitSearch, hroot]
  | node l v r =>
    obtain ⟨hroot, hv, -, -⟩ := h
    obtain ⟨hl, hr, -, -⟩ := hheap
    simp only [firstFitSearch, hroot, hv]
    constructor
    · intro hnone w hw
      have hlt : v.2.size < size := by
        by_contra hle
        rw [if_pos (Nat.le_of_not_lt hle)] at hnone
        cases hnone
      simp only [NodeTree.inorder_node, List.mem_append, List.mem_cons] at hw
      rcases hw with hw | rfl | hw
      · exact Nat.lt_of_le_of_lt (hl w hw) hlt
      · exact hlt
      · exact Nat.lt_of_le_of_lt (hr w hw) hlt
    · intro hall
      rw [if_neg (Nat.not_le_of_lt (hall v (by simp)))]

/-- In every state of a run whose calls keep the tiling, a call fails exactly for lack of a block
that fits, if and only if the pool of nodes suffices for it. -/
theorem fails_for_space_iff
    (h : Transition.Reachable (· = initLargeAllocator cfg) (step cfg) KeepsTiling s) (n : Nat)
    (hf : 2 * cfg.treenodeCount + 1 < fuel) :
    ∃ free s' res, Repr s.nodes s.freeRoot free ∧
      allocateLargeObject fuel s n = some (s', res) ∧
      ((res = none ↔ ∀ v, v ∈ free.inorder → v.2.size < getSizeWithAlignment n) ↔
        PoolSuffices s (getSizeWithAlignment n)) := by
  obtain ⟨free, occupied, spare, hshape, htiled⟩ := reachable_tiledState h
  have hlen := hshape.length
  have hnf := (List.nodup_append'.mp (List.nodup_append'.mp hshape.nodup).2.1).1
  obtain ⟨free', occupied', spare', ht⟩ := runs_tiled h
  have hfree : free' = free := repr_unique ht.freeTree hshape.freeTree
  have hocc : occupied' = occupied := repr_unique ht.occupiedTree hshape.occupiedTree
  subst hfree hocc
  obtain ⟨s', res, hrun, -, -⟩ := allocateLargeObject_outcome
    ⟨ht.free_search, ht.free_heap, ht.no_touch, ht.occupied_search, ht.inside, ht.cover⟩
    hshape.holds n (by omega : 2 * (occupied'.size + free'.size) + 1 < fuel)
  refine ⟨free', s', res, hshape.freeTree, hrun, ?_⟩
  rw [allocateLargeObject_none_iff hshape.freeTree hnf (by omega) hrun,
    ← firstFitSearch_none_iff hshape.freeTree htiled.isFree.heap]
  constructor
  · intro hiff i hi
    by_contra hno
    rw [not_or, not_not] at hno
    have hnone := hiff.mp fun j hj => ?_
    · rw [hi] at hnone
      cases hnone
    · rw [hi] at hj
      cases hj
      exact hno
  · intro hpool
    constructor
    · intro hsplit
      cases hi : firstFitSearch s.nodes s.freeRoot (getSizeWithAlignment n) with
      | none => rfl
      | some i =>
        obtain ⟨hsize, hhead⟩ := hsplit i hi
        rcases hpool i hi with heq | hne
        · exact absurd heq hsize
        · exact absurd hhead hne
    · intro hnone i hi
      rw [hnone] at hi
      cases hi

end Calls

/-- One object of 2016 bytes in a heap of 4096: both nodes are in use. -/
theorem one_allocated :
    ∃ s, Transition.Reachable (· = initLargeAllocator oneBlock) (step oneBlock) KeepsTiling s ∧
      s.treenodeListHead = none ∧ s.freeRoot = some 1 ∧
      s.nodes 1 = ⟨⟨10208, 2080, false⟩, none, none⟩ := by
  have hstart : Transition.Reachable (· = initLargeAllocator oneBlock) (step oneBlock)
      AllocatesOnly (initLargeAllocator oneBlock) := .init rfl
  obtain ⟨s, hr, hp⟩ := hstart.exists_of_run [.allocate 2016 4]
    (fun s => s.treenodeListHead = none ∧ s.freeRoot = some 1 ∧
      s.nodes 1 = ⟨⟨10208, 2080, false⟩, none, none⟩) (by decide +kernel)
  refine ⟨s, hr.mono fun s a ha => ?_, hp⟩
  cases a with
  | allocate n fuel => exact ha
  | sweep flags fuel => exact ha.elim

theorem fails_for_space_iff_exact_fit :
    ∃ s s' res, Transition.Reachable (· = initLargeAllocator oneBlock) (step oneBlock)
        KeepsTiling s ∧ allocateLargeObject 6 s 2080 = some (s', res) ∧ res ≠ none := by
  obtain ⟨s, hr, hhead, hroot, hnode⟩ := one_allocated
  obtain ⟨free, s', res, hrepr, hrun, hiff⟩ := fails_for_space_iff hr 2080 (show _ < 6 by decide)
  refine ⟨s, s', res, hr, hrun, fun hres => ?_⟩
  have hpool : PoolSuffices s (getSizeWithAlignment 2080) := by
    intro i hi
    rw [hroot] at hi
    simp only [firstFitSearch, hnode] at hi
    cases hi
    exact Or.inl (by rw [hnode]; rfl)
  have hnofit := (hiff.mpr hpool).mp hres
  have hleaf : free = NodeTree.leaf (1, ⟨10208, 2080, false⟩) := by
    refine repr_unique hrepr ?_
    rw [hroot]
    exact repr_leaf hnode
  subst hleaf
  exact absurd (hnofit (1, ⟨10208, 2080, false⟩) (by simp)) (by decide)

/-- Half of the heap is free, but no node is left for the rest of the free block. -/
theorem no_node_left :
    ¬ ∀ (cfg : Config) (s : LargeAllocator) (n fuel : Nat),
      Transition.Reachable (· = initLargeAllocator cfg) (step cfg) Transition.anyStep s →
      maxObjectSize < n → n ≤ cfg.heapSize → 2 * cfg.treenodeCount + 1 < fuel →
      ∀ free, Repr s.nodes s.freeRoot free →
        ∃ s' res, allocateLargeObject fuel s n = some (s', res) ∧
          (res = none ↔ ∀ v, v ∈ free.inorder → v.2.size < getSizeWithAlignment n) := by
  intro h
  obtain ⟨s, hr, hhead, hroot, hnode⟩ := one_allocated
  have hleaf : Repr s.nodes s.freeRoot (NodeTree.leaf (1, ⟨10208, 2080, false⟩)) := by
    rw [hroot]
    exact repr_leaf hnode
  obtain ⟨s', res, hrun, hiff⟩ := h oneBlock s 2016 6 hr.unguarded (by decide) (by decide)
    (by decide) _ hleaf
  have hnone : res = none := by
    rw [allocateLargeObject_none_iff hleaf (by simp [BlockTree.ids]) (show 1 < 6 by decide) hrun]
    intro i hi
    rw [hroot] at hi
    simp only [firstFitSearch, hnode] at hi
    cases hi
    rw [hnode]
    exact ⟨by decide, hhead⟩
  exact absurd (hiff.mp hnone (1, ⟨10208, 2080, false⟩) (by simp)) (by decide)

end GarbageCollector.NodePool
