import GarbageCollector.LargeState

/-!
# A free node that keeps its child pointers

`remove_treap` leaves the child pointers of the removed node as they are. What `insert_bst` and
`merge_treap` make of a node whose children are still nodes of another tree.
-/

namespace GarbageCollector

open BinaryTree LinkedList

section Frames

variable {nodes nodes' : Nodes} {fuel : Nat} {p q q' : Option Nat} {t t' u : BlockTree}
  {a i j : Nat}

theorem Below.trans (h : Below nodes p i) (h' : Below nodes (some i) j) : Below nodes p j := by
  induction h with
  | here i => exact h'
  | left _ ih => exact .left (ih h')
  | right _ ih => exact .right (ih h')

/-- Only left pointers of nodes below the right argument are written, and only right pointers of
nodes below the left argument. -/
theorem mergeTreap_frame (hrun : mergeTreap fuel nodes p q = some (nodes', q')) :
    (∀ i, ¬ Below nodes q i → (nodes' i).left = (nodes i).left) ∧
      (∀ i, ¬ Below nodes p i → (nodes' i).right = (nodes i).right) ∧
      ∀ i, (nodes' i).block = (nodes i).block := by
  induction fuel generalizing p q nodes' q' with
  | zero => cases hrun
  | succ fuel ih =>
    cases p with
    | none =>
      cases hrun
      exact ⟨fun _ _ => rfl, fun _ _ => rfl, fun _ => rfl⟩
    | some l =>
      cases q with
      | none =>
        cases hrun
        exact ⟨fun _ _ => rfl, fun _ _ => rfl, fun _ => rfl⟩
      | some r =>
        rw [mergeTreap] at hrun
        split at hrun
        · obtain ⟨⟨n₁, q₁⟩, hrun₁, he⟩ := Option.map_eq_some_iff.mp hrun
          cases he
          obtain ⟨hleft, hright, hblock⟩ := ih hrun₁
          refine ⟨fun i hi => ?_, fun i hi => ?_, fun i => ?_⟩
          · by_cases hil : i = l
            · subst hil
              simpa [setRight] using hleft i hi
            · simpa [setRight, hil] using hleft i hi
          · have hil : i ≠ l := by
              rintro rfl
              exact hi (.here i)
            simpa [setRight, hil] using hright i fun hb => hi (.right hb)
          · by_cases hil : i = l
            · subst hil
              simpa [setRight] using hblock i
            · simpa [setRight, hil] using hblock i
        · obtain ⟨⟨n₁, q₁⟩, hrun₁, he⟩ := Option.map_eq_some_iff.mp hrun
          cases he
          obtain ⟨hleft, hright, hblock⟩ := ih hrun₁
          refine ⟨fun i hi => ?_, fun i hi => ?_, fun i => ?_⟩
          · have hir : i ≠ r := by
              rintro rfl
              exact hi (.here i)
            simpa [setLeft, hir] using hleft i fun hb => hi (.left hb)
          · by_cases hir : i = r
            · subst hir
              simpa [setLeft] using hright i hi
            · simpa [setLeft, hir] using hright i hi
          · by_cases hir : i = r
            · subst hir
              simpa [setLeft] using hblock i
            · simpa [setLeft, hir] using hblock i

/-- Two trees can be merged whether or not they share nodes: every pointer is read before it is
written. -/
theorem mergeTreap_ends (h : Repr nodes p t) (h' : Repr nodes q t')
    (hf : t.size + t'.size < fuel) : ∃ res, mergeTreap fuel nodes p q = some res := by
  induction fuel generalizing p q t t' with
  | zero => omega
  | succ fuel ih =>
    cases t with
    | nil =>
      cases h
      exact ⟨_, rfl⟩
    | node l v r =>
      obtain ⟨rfl, -, hl, hr⟩ := id h
      cases t' with
      | nil =>
        cases h'
        exact ⟨_, rfl⟩
      | node l' v' r' =>
        obtain ⟨rfl, -, hl', hr'⟩ := id h'
        simp only [NodeTree.size] at hf
        rw [mergeTreap]
        split
        · obtain ⟨res, hres⟩ := ih hr h' (by simp only [NodeTree.size]; omega)
          exact ⟨_, by rw [hres]; rfl⟩
        · obtain ⟨res, hres⟩ := ih h hl' (by simp only [NodeTree.size]; omega)
          exact ⟨_, by rw [hres]; rfl⟩

/-- Of the left argument only the right subtree matters. -/
theorem mergeTreap_ends_of_right (h : Repr nodes (nodes a).right t) (h' : Repr nodes q u)
    (hf : t.size + u.size + 1 < fuel) : ∃ res, mergeTreap fuel nodes (some a) q = some res := by
  induction u generalizing q fuel with
  | nil =>
    cases h'
    obtain ⟨fuel, rfl⟩ := Nat.exists_eq_add_one_of_ne_zero (Nat.ne_of_gt (Nat.zero_lt_of_lt hf))
    exact ⟨_, rfl⟩
  | node l v r ihl _ =>
    obtain ⟨rfl, -, hl, hr⟩ := id h'
    obtain ⟨fuel, rfl⟩ := Nat.exists_eq_add_one_of_ne_zero (Nat.ne_of_gt (Nat.zero_lt_of_lt hf))
    simp only [NodeTree.size] at hf
    rw [mergeTreap]
    split
    · obtain ⟨res, hres⟩ := mergeTreap_ends h h' (by simp only [NodeTree.size]; omega : _ < fuel)
      exact ⟨_, by rw [hres]; rfl⟩
    · obtain ⟨res, hres⟩ := ihl hl (by omega : _ < fuel)
      exact ⟨_, by rw [hres]; rfl⟩

end Frames

/-- Left pointers of nodes in `ids` lead from the pointer to the node `a`. -/
inductive LeftTo (nodes : Nodes) (ids : List Nat) (a : Nat) : Option Nat → Prop where
  | here : LeftTo nodes ids a (some a)
  | step {i : Nat} (hi : i ∈ ids) (h : LeftTo nodes ids a (nodes i).left) :
      LeftTo nodes ids a (some i)

section Cycles

variable {nodes nodes' : Nodes} {fuel : Nat} {p q q' : Option Nat} {t t' u : BlockTree}
  {a e i j : Nat} {ids ids' : List Nat}

theorem LeftTo.reaches (h : LeftTo nodes ids a q) : Below nodes q a := by
  induction h with
  | here => exact .here a
  | step _ _ ih => exact .left ih

theorem LeftTo.frame (h : LeftTo nodes ids a q)
    (same : ∀ i, i ∈ ids → (nodes' i).left = (nodes i).left) : LeftTo nodes' ids a q := by
  induction h with
  | here => exact .here
  | step hi _ ih =>
    apply LeftTo.step hi
    rw [same _ hi]
    exact ih

theorem LeftTo.mono (h : LeftTo nodes ids a q) (hsub : ids ⊆ ids') : LeftTo nodes ids' a q := by
  induction h with
  | here => exact .here
  | step hi _ ih => exact .step (hsub hi) ih

/-- The left argument of a merge is found on the left spine of the result. -/
theorem mergeTreap_leftTo (h : Repr nodes q u) (hn : u.ids.Nodup)
    (hrun : mergeTreap fuel nodes (some a) q = some (nodes', q')) :
    LeftTo nodes' u.ids a q' := by
  induction u generalizing q fuel nodes' q' with
  | nil =>
    cases h
    cases fuel with
    | zero => cases hrun
    | succ fuel =>
      cases hrun
      exact .here
  | node l v r ihl _ =>
    obtain ⟨rfl, -, hl, hr⟩ := h
    obtain ⟨hnl, -, hvl, -, -⟩ := nodup_ids_node.mp hn
    cases fuel with
    | zero => cases hrun
    | succ fuel =>
      rw [mergeTreap] at hrun
      split at hrun
      · obtain ⟨⟨n₁, q₁⟩, hrun₁, he⟩ := Option.map_eq_some_iff.mp hrun
        cases he
        exact .here
      · obtain ⟨⟨n₁, q₁⟩, hrun₁, he⟩ := Option.map_eq_some_iff.mp hrun
        cases he
        have hchain := ihl hl hnl hrun₁
        refine .step (by simp) ?_
        rw [show (setLeft n₁ v.1 q₁ v.1).left = q₁ by simp [setLeft]]
        refine (hchain.frame fun i hi => ?_).mono (by simp)
        have hiv : i ≠ v.1 := by
          rintro rfl
          exact hvl hi
        simp [setLeft, hiv]

/-- A left argument keeps a right child that is at least as large as itself. -/
theorem mergeTreap_right_kept (hright : (nodes a).right = some e)
    (hsize : (nodes a).block.size ≤ (nodes e).block.size)
    (hrun : mergeTreap fuel nodes (some a) q = some (nodes', q')) :
    (nodes' a).right = some e := by
  induction fuel generalizing q nodes' q' with
  | zero => cases hrun
  | succ fuel ih =>
    cases q with
    | none =>
      cases hrun
      exact hright
    | some r =>
      rw [mergeTreap] at hrun
      split at hrun
      · rename_i hlt
        obtain ⟨⟨n₁, q₁⟩, hrun₁, he⟩ := Option.map_eq_some_iff.mp hrun
        cases he
        -- the right child is larger than the right argument, so it is the root of the result
        rw [hright] at hrun₁
        cases fuel with
        | zero => cases hrun₁
        | succ fuel =>
          rw [mergeTreap, if_pos (by omega)] at hrun₁
          obtain ⟨⟨n₂, q₂⟩, -, he₂⟩ := Option.map_eq_some_iff.mp hrun₁
          cases he₂
          simp [setRight]
      · obtain ⟨⟨n₁, q₁⟩, hrun₁, he⟩ := Option.map_eq_some_iff.mp hrun
        cases he
        have hkept := ih hrun₁
        by_cases har : a = r
        · subst har
          simpa [setLeft] using hkept
        · simpa [setLeft, har] using hkept

/-- Merging a node with itself makes a cycle through its left pointer. -/
theorem mergeTreap_self {l : BlockTree} (h : Repr nodes (nodes a).left l) (hn : l.ids.Nodup)
    (ha : a ∉ l.ids) (hrun : mergeTreap fuel nodes (some a) (some a) = some (nodes', q')) :
    q' = some a ∧ LeftTo nodes' l.ids a (nodes' a).left := by
  cases fuel with
  | zero => cases hrun
  | succ fuel =>
    rw [mergeTreap, if_neg (lt_irrefl _)] at hrun
    obtain ⟨⟨n₁, q₁⟩, hrun₁, he⟩ := Option.map_eq_some_iff.mp hrun
    cases he
    refine ⟨rfl, ?_⟩
    rw [show (setLeft n₁ a q₁ a).left = q₁ by simp [setLeft]]
    refine (mergeTreap_leftTo h hn hrun₁).frame fun i hi => ?_
    have hia : i ≠ a := by
      rintro rfl
      exact ha hi
    simp [setLeft, hia]

/-- In a tree that contains each node once no node is below its own left child. -/
theorem acyclic_left (h : Repr nodes p t) (hn : t.ids.Nodup) (ha : a ∈ t.ids) :
    ¬ Below nodes (nodes a).left a := by
  induction t generalizing p with
  | nil => cases ha
  | node l v r ihl ihr =>
    obtain ⟨rfl, -, hl, hr⟩ := h
    obtain ⟨hnl, hnr, hvl, -, -⟩ := nodup_ids_node.mp hn
    rw [ids_node, List.mem_append, List.mem_cons] at ha
    rcases ha with ha | rfl | ha
    · exact ihl hl hnl ha
    · rw [below_iff hl]
      exact hvl
    · exact ihr hr hnr ha

end Cycles

section Hang

variable {nodes : Nodes} {fuel : Nat} {p : Option Nat} {t : BlockTree} {x : Nat}

/-- What is below the children of a node is below the node. -/
theorem below_of_children {ls rs : List Nat} {v : Nat}
    (hl : ∀ i, i ∈ ls → Below nodes (nodes v).left i)
    (hr : ∀ i, i ∈ rs → Below nodes (nodes v).right i) :
    ∀ i, i ∈ ls ++ v :: rs → Below nodes (some v) i := by
  intro i hi
  rcases List.mem_append.mp hi with hi | hi
  · exact .left (hl i hi)
  · rcases List.mem_cons.mp hi with rfl | hi
    · exact .here i
    · exact .right (hr i hi)

/-- A node that comes with children of its own is hung into the tree with them. The pointers
lead to it and to the nodes of the tree in every store that agrees with the new one there. -/
theorem insertBst_hangs (h : Repr nodes p t) (hn : (x :: t.ids).Nodup) (hf : t.size < fuel) :
    ∃ nodes' p', insertBst fuel nodes p x = some (nodes', p') ∧ SameOff nodes nodes' t.ids ∧
      ∀ nodes'', (∀ i, i ∈ x :: t.ids → nodes'' i = nodes' i) →
        ∀ i, i ∈ x :: t.ids → Below nodes'' p' i := by
  induction t generalizing p fuel with
  | nil =>
    cases h
    obtain ⟨fuel, rfl⟩ := Nat.exists_eq_add_one_of_ne_zero (Nat.ne_of_gt (Nat.zero_lt_of_lt hf))
    refine ⟨nodes, some x, rfl, SameOff.refl, fun _ _ i hi => ?_⟩
    rw [ids_nil, List.mem_singleton] at hi
    rw [hi]
    exact .here x
  | node l v r ihl ihr =>
    obtain ⟨rfl, hb, hl, hr⟩ := h
    obtain ⟨hxt, hnt⟩ := List.nodup_cons.mp hn
    obtain ⟨hnl, hnr, hvl, hvr, hdisj⟩ := nodup_ids_node.mp hnt
    simp only [ids_node, List.mem_append, List.mem_cons, not_or] at hxt
    obtain ⟨hxl, hxv, hxr⟩ := hxt
    obtain ⟨fuel, rfl⟩ := Nat.exists_eq_add_one_of_ne_zero (Nat.ne_of_gt (Nat.zero_lt_of_lt hf))
    simp only [NodeTree.size] at hf
    rw [insertBst]
    by_cases hlt : (nodes x).block.addr < (nodes v.1).block.addr
    · obtain ⟨nodes', p', hrun, hsame, hbelow⟩ :=
        ihl hl (List.nodup_cons.mpr ⟨hxl, hnl⟩) (by omega : l.size < fuel)
      rw [if_pos hlt, hrun]
      refine ⟨_, _, rfl, ?_, fun nodes'' hagree i hi => ?_⟩
      · exact (hsame.mono (by simp)).trans (sameOff_update _ (by simp))
      have hv : nodes'' v.1 = { nodes v.1 with left := p' } := by
        rw [hagree v.1 (by simp)]
        simp [setLeft, hsame v.1 hvl]
      have hrest : ∀ j, j ∈ x :: BlockTree.ids (.node l v r) → j ≠ v.1 →
          nodes'' j = nodes' j := by
        intro j hj hjv
        rw [hagree j hj]
        simp [setLeft, hjv]
      have hleft : ∀ j, j ∈ x :: BlockTree.ids l → Below nodes'' (nodes'' v.1).left j := by
        rw [hv]
        refine hbelow nodes'' fun j hj => ?_
        refine hrest j (List.cons_subset_cons x ids_left_subset hj) fun he => ?_
        rcases List.mem_cons.mp (he ▸ hj) with he | hj
        · exact hxv he.symm
        · exact hvl hj
      have hright : Repr nodes'' (nodes'' v.1).right r := by
        rw [hv]
        refine hr.congr fun j hj => ?_
        rw [hrest j (List.mem_cons_of_mem x (ids_right_subset hj)) fun he => hvr (he ▸ hj)]
        exact hsame j fun hjl => hdisj hjl hj
      refine below_of_children hleft (fun j hj => (below_iff hright j).mpr hj) i ?_
      rwa [List.cons_append, ← ids_node]
    · obtain ⟨nodes', p', hrun, hsame, hbelow⟩ :=
        ihr hr (List.nodup_cons.mpr ⟨hxr, hnr⟩) (by omega : r.size < fuel)
      rw [if_neg hlt, hrun]
      refine ⟨_, _, rfl, ?_, fun nodes'' hagree i hi => ?_⟩
      · refine (hsame.mono fun i hi => ?_).trans (sameOff_update _ ?_)
        · simp [hi]
        · simp
      have hv : nodes'' v.1 = { nodes v.1 with right := p' } := by
        rw [hagree v.1 (by simp)]
        simp [setRight, hsame v.1 hvr]
      have hrest : ∀ j, j ∈ x :: BlockTree.ids (.node l v r) → j ≠ v.1 →
          nodes'' j = nodes' j := by
        intro j hj hjv
        rw [hagree j hj]
        simp [setRight, hjv]
      have hright : ∀ j, j ∈ x :: BlockTree.ids r → Below nodes'' (nodes'' v.1).right j := by
        rw [hv]
        refine hbelow nodes'' fun j hj => ?_
        refine hrest j (List.cons_subset_cons x ids_right_subset hj) fun he => ?_
        rcases List.mem_cons.mp (he ▸ hj) with he | hj
        · exact hxv he.symm
        · exact hvr hj
      have hleft : Repr nodes'' (nodes'' v.1).left l := by
        rw [hv]
        refine hl.congr fun j hj => ?_
        rw [hrest j (List.mem_cons_of_mem x (ids_left_subset hj)) fun he => hvl (he ▸ hj)]
        exact hsame j fun hjr => hdisj hj hjr
      refine below_of_children (fun j hj => (below_iff hleft j).mpr hj) hright i ?_
      simp only [ids_node, List.mem_cons, List.mem_append] at hi ⊢
      tauto

end Hang

/-- The pointer to the root. -/
def rootId : BlockTree → Option Nat
  | .nil => none
  | .node _ v _ => some v.1

section Reinsert

variable {s : LargeAllocator} {nodes : Nodes} {fuel : Nat} {p : Option Nat} {t l r : BlockTree}
  {v : Nat × Header}

theorem Repr.rootId_eq (h : Repr nodes p t) : p = rootId t := by
  cases t with
  | nil => exact h
  | node l v r => exact h.1

/-- A node between two trees, neither of which it touches. -/
structure LiesBetween (l : BlockTree) (v : Nat × Header) (r : BlockTree) : Prop where
  left_lt : ∀ w, w ∈ l.inorder → w.2.addr < v.2.addr
  right_gt : ∀ w, w ∈ r.inorder → v.2.addr < w.2.addr
  left_apart : ∀ w, w ∈ l.inorder → w.2.stop ≠ v.2.addr
  right_apart : ∀ w, w ∈ r.inorder → v.2.stop ≠ w.2.addr
  left_size : ∀ w, w ∈ l.inorder → w.2.size ≤ v.2.size
  right_size : ∀ w, w ∈ r.inorder → w.2.size ≤ v.2.size
  nodup : (BlockTree.ids (.node l v r)).Nodup

/-- The first of the two merges of `insert_treap` for a node with a left child, when it is merged
with the tree of this child. -/
theorem merge_left_child_cycle {ll lr : BlockTree} {c : Nat × Header}
    (hb : LiesBetween (.node ll c lr) v r) (hv : (nodes v.1).block = v.2)
    (hl : Repr nodes (nodes v.1).left (.node ll c lr)) (hr : Repr nodes (nodes v.1).right r)
    (hf : 2 * ((NodeTree.node ll c lr).size + r.size + 1) < fuel) :
    ∃ nodes₁ t₁ nodes₂ t₂,
      mergeTreap fuel nodes (nodes v.1).left (some v.1) = some (nodes₁, t₁) ∧
      mergeTreap fuel nodes₁ t₁ (nodes v.1).right = some (nodes₂, t₂) ∧
      ∃ x, Below nodes₂ t₂ x ∧ Below nodes₂ (nodes₂ x).left x := by
  obtain ⟨hnl, hnr, hvl, hvr, hd⟩ := nodup_ids_node.mp hb.nodup
  obtain ⟨hnll, -, hcll, -, -⟩ := nodup_ids_node.mp hnl
  obtain ⟨hroot, hbc, hll, -⟩ := id hl
  obtain ⟨fuel, rfl⟩ := Nat.exists_eq_add_one_of_ne_zero (Nat.ne_of_gt (Nat.zero_lt_of_lt hf))
  have hcv : c.1 ≠ v.1 := fun he => hvl (by simp [← he])
  have hcr : c.1 ∉ r.ids := fun hin => hd (by simp) hin
  have hne : ∀ i, i ∈ ll.ids → i ≠ v.1 ∧ i ∉ r.ids := by
    intro i hi
    have hil : i ∈ BlockTree.ids (.node ll c lr) := by simp [hi]
    exact ⟨fun he => hvl (he ▸ hil), fun hin => hd hil hin⟩
  -- the child is merged with itself
  have hsize : ¬ (nodes v.1).block.size < (nodes c.1).block.size := by
    rw [hv, hbc, not_lt]
    exact hb.left_size c (by simp)
  obtain ⟨⟨n₁, q₁⟩, hrun₁⟩ := mergeTreap_ends hl hl (by omega : _ < fuel)
  have hself := hrun₁
  rw [hroot] at hself
  obtain ⟨rfl, hchain⟩ := mergeTreap_self hll hnll hcll hself
  obtain ⟨hleft₁, hright₁, hblock₁⟩ := mergeTreap_frame hrun₁
  have hoff : ∀ i, i ∉ BlockTree.ids (.node ll c lr) → ¬ Below nodes (nodes v.1).left i :=
    fun i hi hbelow => hi ((below_iff hl i).mp hbelow)
  have hfirst : mergeTreap (fuel + 1) nodes (nodes v.1).left (some v.1) =
      some (setLeft n₁ v.1 (some c.1), some v.1) := by
    rw [hroot, mergeTreap, if_neg hsize, hroot, hself]
    rfl
  generalize hset : setLeft n₁ v.1 (some c.1) = nodes₁ at *
  have hv₁ : (nodes₁ v.1).left = some c.1 ∧ (nodes₁ v.1).right = (nodes v.1).right := by
    rw [← hset]
    simp [setLeft, hright₁ v.1 (hoff v.1 hvl)]
  have hother : ∀ i, i ≠ v.1 → nodes₁ i = n₁ i := by
    intro i hi
    rw [← hset]
    simp [setLeft, hi]
  -- the second merge works on the right subtree
  have hr₁ : Repr nodes₁ (nodes v.1).right r := by
    refine hr.congr fun i hi => ?_
    have hil : i ∉ BlockTree.ids (.node ll c lr) := fun hin => hd hin hi
    rw [hother i fun he => hvr (he ▸ hi)]
    exact TreeNode.ext (hblock₁ i) (hleft₁ i (hoff i hil)) (hright₁ i (hoff i hil))
  obtain ⟨⟨n₂, q₂⟩, hrun₂⟩ := mergeTreap_ends_of_right (a := v.1) (by rw [hv₁.2]; exact hr₁) hr₁
    (by omega : _ < fuel + 1)
  refine ⟨nodes₁, some v.1, n₂, q₂, hfirst, hrun₂, c.1, ?_, ?_⟩
  · obtain ⟨hleft₂, -, -⟩ := mergeTreap_frame hrun₂
    apply (mergeTreap_leftTo hr₁ hnr hrun₂).reaches.trans
    apply Below.left
    rw [hleft₂ v.1 fun hbelow => hvr ((below_iff hr₁ _).mp hbelow), hv₁.1]
    exact .here _
  · obtain ⟨hleft₂, -, -⟩ := mergeTreap_frame hrun₂
    have hkept : ∀ i, i ≠ v.1 → i ∉ r.ids → (n₂ i).left = (n₁ i).left := by
      intro i hi hir
      rw [hleft₂ i fun hbelow => hir ((below_iff hr₁ _).mp hbelow), hother i hi]
    rw [hkept c.1 hcv hcr]
    exact (hchain.frame fun i hi => hkept i (hne i hi).1 (hne i hi).2).reaches

/-- The second merge, when the node has a right child only. -/
theorem merge_right_child_cycle {rl rr : BlockTree} {e : Nat × Header}
    (hb : LiesBetween .nil v (.node rl e rr)) (hr : Repr nodes (nodes v.1).right (.node rl e rr))
    (hf : 2 * ((NodeTree.node rl e rr).size + 1) < fuel) :
    ∃ nodes₂ t₂, mergeTreap fuel nodes (some v.1) (nodes v.1).right = some (nodes₂, t₂) ∧
      ∃ x, Below nodes₂ t₂ x ∧ Below nodes₂ (nodes₂ x).left x := by
  obtain ⟨-, hnr, -, hvr, -⟩ := nodup_ids_node.mp hb.nodup
  obtain ⟨hnrl, -, herl, -, -⟩ := nodup_ids_node.mp hnr
  obtain ⟨hroot, hbe, hrl, -⟩ := id hr
  obtain ⟨fuel, rfl⟩ := Nat.exists_eq_add_one_of_ne_zero (Nat.ne_of_gt (Nat.zero_lt_of_lt hf))
  have hev : e.1 ≠ v.1 := fun he => hvr (by simp [← he])
  have hne : ∀ i, i ∈ rl.ids → i ≠ e.1 := fun i hi he => herl (he ▸ hi)
  simp only [NodeTree.size] at hf
  by_cases hsize : (nodes e.1).block.size < (nodes v.1).block.size
  · -- the child is merged with itself
    obtain ⟨⟨n₁, q₁⟩, hrun₁⟩ :=
      mergeTreap_ends hr hr (by simp only [NodeTree.size]; omega : _ < fuel)
    have hself := hrun₁
    rw [hroot] at hself
    obtain ⟨rfl, hchain⟩ := mergeTreap_self hrl hnrl herl hself
    have hleft : ∀ i, (setRight n₁ v.1 (some e.1) i).left = (n₁ i).left := by
      intro i
      by_cases hi : i = v.1
      · rw [hi]
        simp [setRight]
      · simp [setRight, hi]
    refine ⟨setRight n₁ v.1 (some e.1), some v.1, ?_, e.1, ?_, ?_⟩
    · rw [hroot, mergeTreap, if_pos hsize, hroot, hself]
      rfl
    · apply Below.right
      rw [show (setRight n₁ v.1 (some e.1) v.1).right = some e.1 by simp [setRight]]
      exact .here _
    · rw [hleft]
      exact (hchain.frame fun i _ => hleft i).reaches
  · -- the child is as large as the node and becomes the root; the node keeps it as right child
    obtain ⟨⟨n₁, q₁⟩, hrun₁⟩ := mergeTreap_ends_of_right (a := v.1) hr hrl
      (by simp only [NodeTree.size]; omega : _ < fuel)
    have hchain := mergeTreap_leftTo hrl hnrl hrun₁
    have hkept := mergeTreap_right_kept hroot (not_lt.mp hsize) hrun₁
    refine ⟨setLeft n₁ e.1 q₁, some e.1, ?_, e.1, .here _, ?_⟩
    · rw [hroot, mergeTreap, if_neg hsize, hrun₁]
      rfl
    · rw [show (setLeft n₁ e.1 q₁ e.1).left = q₁ by simp [setLeft]]
      have hchain' : LeftTo (setLeft n₁ e.1 q₁) rl.ids v.1 q₁ := by
        refine hchain.frame fun i hi => ?_
        simp [setLeft, hne i hi]
      apply hchain'.reaches.trans
      apply Below.right
      rw [show (setLeft n₁ e.1 q₁ v.1).right = some e.1 by simp [setLeft, hev.symm, hkept]]
      exact .here _

/-- The two merges of `insert_treap` for a node whose children are the roots of the two trees
that it is merged with: some node ends up below its own left child. -/
theorem merge_children_cycle (hb : LiesBetween l v r) (hv : (nodes v.1).block = v.2)
    (hl : Repr nodes (nodes v.1).left l) (hr : Repr nodes (nodes v.1).right r)
    (hchild : l ≠ .nil ∨ r ≠ .nil) (hf : 2 * (l.size + r.size + 1) < fuel) :
    ∃ nodes₁ t₁ nodes₂ t₂,
      mergeTreap fuel nodes (nodes v.1).left (some v.1) = some (nodes₁, t₁) ∧
      mergeTreap fuel nodes₁ t₁ (nodes v.1).right = some (nodes₂, t₂) ∧
      ∃ x, Below nodes₂ t₂ x ∧ Below nodes₂ (nodes₂ x).left x := by
  cases l with
  | node ll c lr => exact merge_left_child_cycle hb hv hl hr hf
  | nil =>
    cases r with
    | nil => exact absurd hchild (by simp)
    | node rl e rr =>
      have hleft : (nodes v.1).left = none := hl
      have hfuel : 0 < fuel := by omega
      obtain ⟨fuel, rfl⟩ := Nat.exists_eq_add_one_of_ne_zero hfuel.ne'
      obtain ⟨nodes₂, t₂, hrun, hcycle⟩ := merge_right_child_cycle hb hr
        (by simp only [NodeTree.size] at hf ⊢; omega : _ < fuel + 1)
      exact ⟨nodes, some v.1, nodes₂, t₂, by rw [hleft]; rfl, hrun, hcycle⟩

/-- `insert_treap` puts the node between its own children, which makes a cycle. -/
theorem insertTreap_cycle (hb : LiesBetween l v r) (hv : (s.nodes v.1).block = v.2)
    (hfree : Repr s.nodes s.freeRoot (NodeTree.merge nodeSize l r))
    (hleft : (s.nodes v.1).left = rootId l) (hright : (s.nodes v.1).right = rootId r)
    (hchild : l ≠ .nil ∨ r ≠ .nil) (hf : 2 * (l.size + r.size + 1) < fuel) :
    ∃ s' p', insertTreap fuel s s.freeRoot (some v.1) = some (s', p') ∧
      ∃ x, Below s'.nodes p' x ∧ Below s'.nodes (s'.nodes x).left x := by
  obtain ⟨hnl, hnr, hvl, hvr, hd⟩ := nodup_ids_node.mp hb.nodup
  have hids := ids_merge l r
  have hnm : (BlockTree.ids (NodeTree.merge nodeSize l r)).Nodup := by
    rw [hids]
    exact List.nodup_append'.mpr ⟨hnl, hnr, hd⟩
  have hsize : (NodeTree.merge nodeSize l r).size = l.size + r.size := by
    rw [← length_ids, hids, List.length_append, length_ids, length_ids]
  obtain ⟨nodes₁, pl, pr, hsplit, hl, hr, hsame⟩ :=
    splitTreap_repr hfree hnm (by omega : (NodeTree.merge nodeSize l r).size < fuel) v.2.addr
  have hback : (NodeTree.merge nodeSize l r).split nodeAddr v.2.addr = (l, r) :=
    NodeTree.split_merge (fun w hw => (hb.left_lt w hw).le) hb.right_gt
  rw [hback] at hl hr
  have hvm : v.1 ∉ BlockTree.ids (NodeTree.merge nodeSize l r) := by
    rw [hids, List.mem_append, not_or]
    exact ⟨hvl, hvr⟩
  have hv₁ := hsame v.1 hvm
  -- no neighbour touches the node
  have hleft₁ : absorbLeft fuel { s with nodes := nodes₁ } pl v.1 =
      some ({ s with nodes := nodes₁ }, pl) := by
    rw [absorbLeft, findRightmost_repr hl (by omega : l.size < fuel)]
    cases hm : l.rightmost with
    | none => rfl
    | some nb =>
      rw [NodeTree.rightmost_eq_last] at hm
      have hmem := List.mem_of_getLast? hm
      have hne : ¬ nb.2.addr + nb.2.size = v.2.addr := hb.left_apart nb hmem
      simp only [Option.map_some, Option.bind_some, hl.block_of_mem hmem, hv₁, hv, if_neg hne]
  have hright₁ : absorbRight fuel { s with nodes := nodes₁ } pr v.1 =
      some ({ s with nodes := nodes₁ }, pr) := by
    rw [absorbRight, findLeftmost_repr hr (by omega : r.size < fuel)]
    cases hm : r.leftmost with
    | none => rfl
    | some nb =>
      rw [NodeTree.leftmost_eq_head] at hm
      have hmem := List.mem_of_mem_head? hm
      have hne : ¬ v.2.addr + v.2.size = nb.2.addr := hb.right_apart nb hmem
      simp only [Option.map_some, Option.bind_some, hr.block_of_mem hmem, hv₁, hv, if_neg hne]
  have hpl : (nodes₁ v.1).left = pl := by rw [hv₁, hleft, hl.rootId_eq]
  have hpr : (nodes₁ v.1).right = pr := by rw [hv₁, hright, hr.rootId_eq]
  have hblock₁ : (nodes₁ v.1).block = v.2 := by rw [hv₁, hv]
  obtain ⟨nodes₂, t₂, nodes₃, t₃, hrun₂, hrun₃, hcycle⟩ := merge_children_cycle hb hblock₁
    (by rw [hpl]; exact hl) (by rw [hpr]; exact hr) hchild hf
  rw [hpl] at hrun₂
  rw [hpr] at hrun₃
  refine ⟨{ s with nodes := nodes₃ }, t₃, ?_, hcycle⟩
  simp only [insertTreap, hv, hsplit, hleft₁, hright₁, hrun₂, hrun₃, Option.bind_eq_bind,
    Option.bind_some]

end Reinsert

end GarbageCollector
