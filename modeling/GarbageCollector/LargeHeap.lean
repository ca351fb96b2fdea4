import GarbageCollector.BinaryTree
import GarbageCollector.LargeAllocator
import Mathlib.Order.Interval.Set.Basic
import Mathlib.Data.Set.Pairwise.Basic
import Mathlib.Order.CompletePartialOrder

/-!
# The large heap as trees

What `insert_treap` and `cleanup_bst` do to the two trees and to the list of spare nodes,
without pointers, and what this means for the blocks and the bytes they cover.
-/

namespace GarbageCollector

open BinaryTree

/-- A tree node: its index and its block. -/
abbrev BlockTree := NodeTree (Nat × Header)

def Header.stop (b : Header) : Nat := b.addr + b.size

def nodeAddr (v : Nat × Header) : Nat := v.2.addr

def nodeSize (v : Nat × Header) : Nat := v.2.size

def BlockTree.ids (t : BlockTree) : List Nat := t.inorder.map Prod.fst

def BlockTree.blocks (t : BlockTree) : List Header := t.inorder.map Prod.snd

/-- The blocks from left to right as pairs of address and size. -/
def BlockTree.extents (t : BlockTree) : List (Nat × Nat) :=
  t.inorder.map fun v => (v.2.addr, v.2.size)

/-- The spare nodes after `free_tree_node` of the node cut off. -/
def release (spare : List Nat) : Option (Nat × Header) → List Nat
  | none => spare
  | some x => x.1 :: spare

/-- `absorbLeft` on trees: the rest of the tree, the spare nodes, the node inserted. -/
def coalesceLeft (l : BlockTree) (spare : List Nat) (x : Nat × Header) :
    BlockTree × List Nat × (Nat × Header) :=
  match l.rightmost with
  | none => (l, spare, x)
  | some nb =>
    if nb.2.stop = x.2.addr then
      ((l.remove Header.addr nb.2.addr).1, release spare (l.remove Header.addr nb.2.addr).2,
        (x.1, { x.2 with addr := nb.2.addr, size := x.2.size + nb.2.size }))
    else (l, spare, x)

def coalesceRight (r : BlockTree) (spare : List Nat) (x : Nat × Header) :
    BlockTree × List Nat × (Nat × Header) :=
  match r.leftmost with
  | none => (r, spare, x)
  | some nb =>
    if x.2.stop = nb.2.addr then
      ((r.remove Header.addr nb.2.addr).1, release spare (r.remove Header.addr nb.2.addr).2,
        (x.1, { x.2 with size := x.2.size + nb.2.size }))
    else (r, spare, x)

/-- `insert_treap` on trees. -/
def coalesce (t : BlockTree) (spare : List Nat) (x : Nat × Header) : BlockTree × List Nat :=
  let lr := t.split nodeAddr x.2.addr
  let a := coalesceLeft lr.1 spare x
  let b := coalesceRight lr.2 a.2.1 a.2.2
  (NodeTree.merge nodeSize (NodeTree.merge nodeSize a.1 (NodeTree.leaf b.2.2)) b.1, b.2.1)

def unmark (b : Header) : Header := { b with isMarked := false }

/-- The end of `cleanup_bst` on trees, when both subtrees are done. -/
def cleanupTop (l : BlockTree) (v : Nat × Header) (r free : BlockTree) (spare : List Nat) :
    BlockTree × BlockTree × List Nat :=
  if v.2.isMarked = true then (.node l (v.1, unmark v.2) r, free, spare)
  else
    match NodeTree.removeRoot l v r with
    | (t, none) => (t, free, spare)
    | (t, some x) => (t, coalesce free spare x)

/-- `cleanup_bst` on trees: the occupied tree, the free tree, the spare nodes. -/
def cleanup : BlockTree → BlockTree → List Nat → BlockTree × BlockTree × List Nat
  | .nil, free, spare => (.nil, free, spare)
  | .node l v r, free, spare =>
    let p := cleanup l free spare
    let q := cleanup r p.2.1 p.2.2
    cleanupTop p.1 v q.1 q.2.1 q.2.2

section Structural

variable {t l r free : BlockTree} {x : Nat × Header}

theorem ids_release (o : Option (Nat × Header)) (spare : List Nat) :
    release spare o = o.toList.map Prod.fst ++ spare := by
  cases o <;> rfl

/-- Every identity stays in the tree or is that of the node cut off. -/
theorem ids_remove (spare : List Nat) (a : Nat) (t : BlockTree) :
    (BlockTree.ids (t.remove Header.addr a).1 ++ release spare (t.remove Header.addr a).2).Perm
      (t.ids ++ spare) := by
  have h := NodeTree.remove_ids Header.addr a t
  rw [List.map_append] at h
  rw [ids_release, ← List.append_assoc]
  exact (List.perm_append_comm.trans h).append_right _

theorem coalesceLeft_ids (l : BlockTree) (spare : List Nat) (x : Nat × Header) :
    ((coalesceLeft l spare x).1.ids ++ (coalesceLeft l spare x).2.1).Perm (l.ids ++ spare) ∧
      (coalesceLeft l spare x).2.2.1 = x.1 := by
  rw [coalesceLeft]
  split
  · exact ⟨List.Perm.refl _, rfl⟩
  split
  · exact ⟨ids_remove spare _ l, rfl⟩
  · exact ⟨List.Perm.refl _, rfl⟩

theorem coalesceRight_ids (r : BlockTree) (spare : List Nat) (x : Nat × Header) :
    ((coalesceRight r spare x).1.ids ++ (coalesceRight r spare x).2.1).Perm (r.ids ++ spare) ∧
      (coalesceRight r spare x).2.2.1 = x.1 := by
  rw [coalesceRight]
  split
  · exact ⟨List.Perm.refl _, rfl⟩
  split
  · exact ⟨ids_remove spare _ r, rfl⟩
  · exact ⟨List.Perm.refl _, rfl⟩

theorem ids_split (a : Nat) (t : BlockTree) :
    BlockTree.ids (t.split nodeAddr a).1 ++ BlockTree.ids (t.split nodeAddr a).2 = t.ids := by
  rw [BlockTree.ids, BlockTree.ids, ← List.map_append, NodeTree.inorder_split]
  rfl

theorem ids_merge (t t' : BlockTree) :
    BlockTree.ids (NodeTree.merge nodeSize t t') = t.ids ++ t'.ids := by
  rw [BlockTree.ids, NodeTree.inorder_merge, List.map_append]
  rfl

/-- A freed node and the nodes of the free tree end up in the free tree or spare. -/
theorem coalesce_ids (t : BlockTree) (spare : List Nat) (x : Nat × Header) :
    ((coalesce t spare x).1.ids ++ (coalesce t spare x).2).Perm (x.1 :: (t.ids ++ spare)) := by
  obtain ⟨hl, hlx⟩ := coalesceLeft_ids (t.split nodeAddr x.2.addr).1 spare x
  simp only [coalesce]
  generalize coalesceLeft (t.split nodeAddr x.2.addr).1 spare x = a at *
  obtain ⟨hr, hrx⟩ := coalesceRight_ids (t.split nodeAddr x.2.addr).2 a.2.1 a.2.2
  generalize coalesceRight (t.split nodeAddr x.2.addr).2 a.2.1 a.2.2 = b at *
  rw [ids_merge, ids_merge, List.append_assoc, List.append_assoc,
    show BlockTree.ids (NodeTree.leaf b.2.2) = [x.1] by rw [← hlx, ← hrx]; rfl]
  refine List.perm_middle.trans (List.Perm.cons _ ?_)
  refine (hr.append_left _).trans ((List.perm_append_comm_assoc _ _ _).trans ?_)
  refine (hl.append_left _).trans ((List.perm_append_comm_assoc _ _ _).trans ?_)
  rw [← List.append_assoc, ids_split]

theorem cleanupTop_ids (l : BlockTree) (v : Nat × Header) (r free : BlockTree)
    (spare : List Nat) :
    ((cleanupTop l v r free spare).1.ids ++
      ((cleanupTop l v r free spare).2.1.ids ++ (cleanupTop l v r free spare).2.2)).Perm
        (BlockTree.ids (.node l v r) ++ (free.ids ++ spare)) := by
  rw [cleanupTop]
  split
  · simp only [BlockTree.ids, NodeTree.inorder_node, List.map_append, List.map_cons]
    exact List.Perm.refl _
  · have hcut := NodeTree.removeRoot_ids l v r
    generalize NodeTree.removeRoot l v r = c at *
    obtain ⟨t', o⟩ := c
    rw [List.map_append] at hcut
    cases o with
    | none => exact List.Perm.append_right _ hcut
    | some x =>
      refine ((coalesce_ids free spare x).append_left _).trans ?_
      exact List.perm_middle.trans (List.Perm.append_right _ hcut)

/-- Nothing is lost while first the left and then the right subtree is swept. -/
theorem children_ids {l l' r r' free free₁ free₂ : BlockTree} {spare spare₁ spare₂ : List Nat}
    (v : Nat × Header)
    (hl : (l'.ids ++ (free₁.ids ++ spare₁)).Perm (l.ids ++ (free.ids ++ spare)))
    (hr : (r'.ids ++ (free₂.ids ++ spare₂)).Perm (r.ids ++ (free₁.ids ++ spare₁))) :
    (BlockTree.ids (.node l' v r') ++ (free₂.ids ++ spare₂)).Perm
      (BlockTree.ids (.node l v r) ++ (free.ids ++ spare)) := by
  have hsub : (l'.ids ++ (r'.ids ++ (free₂.ids ++ spare₂))).Perm
      (l.ids ++ (r.ids ++ (free.ids ++ spare))) := by
    refine (hr.append_left _).trans ((List.perm_append_comm_assoc _ _ _).trans ?_)
    exact (hl.append_left _).trans (List.perm_append_comm_assoc _ _ _)
  simp only [BlockTree.ids, NodeTree.inorder_node, List.map_append, List.map_cons,
    List.append_assoc, List.cons_append] at hsub ⊢
  exact List.perm_middle.trans ((hsub.cons _).trans List.perm_middle.symm)

/-- A sweep keeps every node in one of the three places. -/
theorem cleanup_ids (t free : BlockTree) (spare : List Nat) :
    ((cleanup t free spare).1.ids ++
      ((cleanup t free spare).2.1.ids ++ (cleanup t free spare).2.2)).Perm
        (t.ids ++ (free.ids ++ spare)) := by
  induction t generalizing free spare with
  | nil => exact List.Perm.refl _
  | node l v r ihl ihr =>
    rw [cleanup]
    exact (cleanupTop_ids _ v _ _ _).trans (children_ids v (ihl free spare) (ihr _ _))

/-- No flag is set. -/
def Clear (t : BlockTree) : Prop := ∀ v, v ∈ t.inorder → v.2.isMarked = false

theorem Clear.remove (h : Clear t) (a : Nat) : Clear (t.remove Header.addr a).1 := by
  intro w hw
  obtain ⟨v, hv, he⟩ := List.mem_map.mp (NodeTree.remove_contents Header.addr a t w hw)
  rw [← he]
  exact h v hv

theorem Clear.coalesceLeft (spare : List Nat) (h : Clear l) (hx : x.2.isMarked = false) :
    Clear (coalesceLeft l spare x).1 ∧ (coalesceLeft l spare x).2.2.2.isMarked = false := by
  rw [GarbageCollector.coalesceLeft]
  split
  · exact ⟨h, hx⟩
  split
  · exact ⟨h.remove _, hx⟩
  · exact ⟨h, hx⟩

theorem Clear.coalesceRight (spare : List Nat) (h : Clear r) (hx : x.2.isMarked = false) :
    Clear (coalesceRight r spare x).1 ∧ (coalesceRight r spare x).2.2.2.isMarked = false := by
  rw [GarbageCollector.coalesceRight]
  split
  · exact ⟨h, hx⟩
  split
  · exact ⟨h.remove _, hx⟩
  · exact ⟨h, hx⟩

theorem Clear.coalesce (spare : List Nat) (h : Clear t) (hx : x.2.isMarked = false) :
    Clear (coalesce t spare x).1 := by
  have hl : Clear (t.split nodeAddr x.2.addr).1 :=
    fun v hv => h v (NodeTree.mem_of_mem_split_fst hv)
  have hr : Clear (t.split nodeAddr x.2.addr).2 :=
    fun v hv => h v (NodeTree.mem_of_mem_split_snd hv)
  obtain ⟨hl', hx'⟩ := hl.coalesceLeft spare hx
  simp only [GarbageCollector.coalesce]
  generalize GarbageCollector.coalesceLeft (t.split nodeAddr x.2.addr).1 spare x = a at *
  obtain ⟨hr', hx''⟩ := hr.coalesceRight a.2.1 hx'
  intro v hv
  simp only [NodeTree.inorder_merge, NodeTree.inorder_leaf, List.mem_append,
    List.mem_singleton] at hv
  rcases hv with (hv | rfl) | hv
  · exact hl' v hv
  · exact hx''
  · exact hr' v hv

/-- After a sweep no flag is set, whatever the shape of the occupied tree. -/
theorem cleanup_clear (t : BlockTree) (spare : List Nat) (hfree : Clear free) :
    Clear (cleanup t free spare).1 ∧ Clear (cleanup t free spare).2.1 := by
  induction t generalizing free spare with
  | nil => exact ⟨fun _ hv => (nomatch hv), hfree⟩
  | node l v r ihl ihr =>
    obtain ⟨hpl, hpf⟩ := ihl spare hfree
    simp only [cleanup, cleanupTop]
    generalize cleanup l free spare = p at *
    obtain ⟨hqr, hqf⟩ := ihr p.2.2 hpf
    generalize cleanup r p.2.1 p.2.2 = q at *
    have hroot : ∀ b : Header, b.isMarked = false →
        ∀ w, w ∈ (NodeTree.node p.1 (v.1, b) q.1).inorder → w.2.isMarked = false := by
      intro b hb w hw
      simp only [NodeTree.inorder_node, List.mem_append, List.mem_cons] at hw
      rcases hw with hw | rfl | hw
      · exact hpl w hw
      · exact hb
      · exact hqr w hw
    split
    · exact ⟨hroot _ rfl, hqf⟩
    · rename_i hm
      have hv := hroot v.2 (by simpa using hm)
      obtain ⟨hrest, hcut⟩ := NodeTree.removeRoot_contents p.1 v q.1
      generalize NodeTree.removeRoot p.1 v q.1 = c at *
      have hc : Clear c.1 := by
        intro w hw
        obtain ⟨u, hu, he⟩ := List.mem_map.mp (hrest w hw)
        rw [← he]
        exact hv u hu
      obtain ⟨t', o⟩ := c
      cases o with
      | none => exact ⟨hc, hqf⟩
      | some x => exact ⟨hc, hqf.coalesce q.2.2 (hv x (hcut x rfl))⟩

end Structural

/-- Blocks from left to right with a gap between any two. -/
def Spaced (vs : List (Nat × Header)) : Prop :=
  vs.Pairwise (fun v w => v.2.stop < w.2.addr) ∧ ∀ v, v ∈ vs → 0 < v.2.size

/-- A free tree: blocks apart, search tree on addresses, heap on sizes. -/
structure FreeTree (t : BlockTree) : Prop where
  spaced : Spaced t.inorder
  heap : t.MaxHeap nodeSize

theorem Spaced.sublist {vs ws : List (Nat × Header)} (h : Spaced vs) (hs : ws.Sublist vs) :
    Spaced ws :=
  ⟨h.1.sublist hs, fun v hv => h.2 v (hs.mem hv)⟩

theorem Spaced.searchTree {t : BlockTree} (h : Spaced t.inorder) :
    t.SearchTree nodeAddr := by
  refine h.1.imp_of_mem fun {v w} hv _ hlt => ?_
  have hpos := h.2 v hv
  simp only [Header.stop, nodeAddr] at *
  omega

/-- Blocks without a common byte. -/
def Header.Apart (b c : Header) : Prop := b.stop ≤ c.addr ∨ c.stop ≤ b.addr

/-- The bytes of a list of blocks. -/
def covered (bs : List Header) : Set Nat := {x | ∃ b, b ∈ bs ∧ b.addr ≤ x ∧ x < b.stop}

theorem mem_covered {bs : List Header} {x : Nat} :
    x ∈ covered bs ↔ ∃ b, b ∈ bs ∧ b.addr ≤ x ∧ x < b.stop := Iff.rfl

theorem covered_cons (b : Header) (bs : List Header) :
    covered (b :: bs) = Set.Ico b.addr b.stop ∪ covered bs := by
  ext x
  simp [mem_covered]

theorem covered_append (bs cs : List Header) : covered (bs ++ cs) = covered bs ∪ covered cs := by
  ext x
  simp only [mem_covered, List.mem_append, Set.mem_union]
  constructor
  · rintro ⟨b, hb | hb, hx⟩
    · exact Or.inl ⟨b, hb, hx⟩
    · exact Or.inr ⟨b, hb, hx⟩
  · rintro (⟨b, hb, hx⟩ | ⟨b, hb, hx⟩)
    · exact ⟨b, Or.inl hb, hx⟩
    · exact ⟨b, Or.inr hb, hx⟩

theorem covered_nil : covered [] = ∅ := by
  ext x
  simp [mem_covered]

theorem covered_perm {bs cs : List Header} (h : bs.Perm cs) : covered bs = covered cs := by
  ext x
  simp only [mem_covered, h.mem_iff]

/-- A block of positive size lies apart from blocks that share no byte with it. -/
theorem apart_of_disjoint {b c : Header} {bs : List Header} (hb : 0 < b.size) (hc : 0 < c.size)
    (hmem : c ∈ bs) (hd : Disjoint (Set.Ico b.addr b.stop) (covered bs)) : b.Apart c := by
  by_contra hne
  simp only [Header.Apart, not_or, not_le] at hne
  have hx : max b.addr c.addr ∈ Set.Ico b.addr b.stop := by
    simp only [Set.mem_Ico, Header.stop] at *
    omega
  refine Set.disjoint_left.mp hd hx ⟨c, hmem, le_max_right _ _, ?_⟩
  simp only [Header.stop] at *
  omega

/-- What is cut off below `x`: nothing, or the last block, which touches `x`. -/
theorem coalesceLeft_cases {l : BlockTree} (spare : List Nat) {x : Nat × Header} (h : FreeTree l)
    (hbelow : ∀ v, v ∈ l.inorder → v.2.stop ≤ x.2.addr) :
    (coalesceLeft l spare x = (l, spare, x) ∧ ∀ v, v ∈ l.inorder → v.2.stop < x.2.addr) ∨
      ∃ (nb : Nat × Header) (l' : BlockTree), l.inorder = l'.inorder ++ [nb] ∧
        nb.2.stop = x.2.addr ∧ l'.MaxHeap nodeSize ∧
        coalesceLeft l spare x =
          (l', nb.1 :: spare, (x.1, ⟨nb.2.addr, x.2.size + nb.2.size, x.2.isMarked⟩)) := by
  rw [coalesceLeft]
  cases hm : l.rightmost with
  | none =>
    rw [NodeTree.rightmost_eq_last, List.getLast?_eq_none_iff] at hm
    exact Or.inl ⟨rfl, by simp [hm]⟩
  | some nb =>
    have hlast := hm
    rw [NodeTree.rightmost_eq_last] at hlast
    have hin : l.inorder = l.inorder.dropLast ++ [nb] :=
      (List.dropLast_append_getLast? nb hlast).symm
    by_cases htouch : nb.2.stop = x.2.addr
    · obtain ⟨hcut, hrest, hheap⟩ := NodeTree.remove_rightmost h.spaced.searchTree h.heap hm
      refine Or.inr ⟨nb, (l.remove Header.addr nb.2.addr).1, ?_, htouch, hheap, ?_⟩
      · rw [hrest]
        exact hin
      · simp only [htouch, if_true, hcut, release]
    · refine Or.inl ⟨by simp only [htouch, if_false], fun v hv => ?_⟩
      have hpair := h.spaced.1
      rw [hin, List.pairwise_append] at hpair
      rw [hin, List.mem_append, List.mem_singleton] at hv
      rcases hv with hv | rfl
      · have hgap := hpair.2.2 v hv nb (by simp)
        have hnb : nb ∈ l.inorder := List.mem_of_getLast? hlast
        have hpos := h.spaced.2 nb hnb
        have hle := hbelow nb hnb
        simp only [Header.stop] at *
        omega
      · exact lt_of_le_of_ne (hbelow v (List.mem_of_getLast? hlast)) htouch

theorem coalesceRight_cases {r : BlockTree} (spare : List Nat) {x : Nat × Header} (h : FreeTree r)
    (habove : ∀ v, v ∈ r.inorder → x.2.stop ≤ v.2.addr) :
    (coalesceRight r spare x = (r, spare, x) ∧ ∀ v, v ∈ r.inorder → x.2.stop < v.2.addr) ∨
      ∃ (nb : Nat × Header) (r' : BlockTree), r.inorder = nb :: r'.inorder ∧
        x.2.stop = nb.2.addr ∧ r'.MaxHeap nodeSize ∧
        coalesceRight r spare x =
          (r', nb.1 :: spare, (x.1, ⟨x.2.addr, x.2.size + nb.2.size, x.2.isMarked⟩)) := by
  rw [coalesceRight]
  cases hm : r.leftmost with
  | none =>
    rw [NodeTree.leftmost_eq_head, List.head?_eq_none_iff] at hm
    exact Or.inl ⟨rfl, by simp [hm]⟩
  | some nb =>
    have hhead := hm
    rw [NodeTree.leftmost_eq_head] at hhead
    have hin : r.inorder = nb :: r.inorder.tail := List.eq_cons_of_mem_head? hhead
    by_cases htouch : x.2.stop = nb.2.addr
    · obtain ⟨hcut, hrest, hheap⟩ := NodeTree.remove_leftmost h.spaced.searchTree h.heap hm
      refine Or.inr ⟨nb, (r.remove Header.addr nb.2.addr).1, ?_, htouch, hheap, ?_⟩
      · rw [hrest]
        exact hin
      · simp only [htouch, if_true, hcut, release]
    · refine Or.inl ⟨by simp only [htouch, if_false], fun v hv => ?_⟩
      have hnb : nb ∈ r.inorder := by
        rw [hin]
        exact List.mem_cons_self
      have hpair := h.spaced.1
      rw [hin, List.pairwise_cons] at hpair
      rw [hin, List.mem_cons] at hv
      rcases hv with rfl | hv
      · exact lt_of_le_of_ne (habove v hnb) htouch
      · have hgap := hpair.1 v hv
        have hpos := h.spaced.2 nb hnb
        have hle := habove nb hnb
        simp only [Header.stop] at *
        omega

/-- `t'` and `x'` are what `t` and `x` are after a neighbour in `t` joined `x`, or none. -/
structure Absorbed (t t' : BlockTree) (x x' : Nat × Header) : Prop where
  heap : t'.MaxHeap nodeSize
  stays : t'.inorder.Sublist t.inorder
  pos : 0 < x'.2.size
  covers : covered t'.blocks ∪ Set.Ico x'.2.addr x'.2.stop =
    covered t.blocks ∪ Set.Ico x.2.addr x.2.stop

theorem absorbed_refl {t : BlockTree} {x : Nat × Header} (h : FreeTree t) (hx : 0 < x.2.size) :
    Absorbed t t x x :=
  ⟨h.heap, List.Sublist.refl _, hx, rfl⟩

theorem coalesceLeft_spec {l : BlockTree} (spare : List Nat) {x : Nat × Header} (h : FreeTree l)
    (hx : 0 < x.2.size) (hbelow : ∀ v, v ∈ l.inorder → v.2.stop ≤ x.2.addr) :
    let a := coalesceLeft l spare x
    Absorbed l a.1 x a.2.2 ∧ a.2.2.2.stop = x.2.stop ∧
      ∀ v, v ∈ a.1.inorder → v.2.stop < a.2.2.2.addr := by
  rcases coalesceLeft_cases spare h hbelow with ⟨ha, hgap⟩ | ⟨nb, l', hin, htouch, hheap, ha⟩
  · rw [ha]
    exact ⟨absorbed_refl h hx, rfl, hgap⟩
  · rw [ha]
    have hpair := h.spaced.1
    rw [hin, List.pairwise_append] at hpair
    have hpos := h.spaced.2 nb (by simp [hin])
    refine ⟨⟨hheap, ?_, ?_, ?_⟩, ?_, fun v hv => hpair.2.2 v hv nb (by simp)⟩
    · rw [hin]
      exact List.sublist_append_left _ _
    · simp only
      omega
    · simp only [BlockTree.blocks, hin, List.map_append, List.map_cons, List.map_nil,
        covered_append, covered_cons, covered_nil, Set.union_empty, Set.union_assoc]
      rw [← htouch, Set.Ico_union_Ico_eq_Ico]
      · simp only [Header.stop] at *
        congr 2
        omega
      · simp only [Header.stop]
        omega
      · simp only [Header.stop] at *
        omega
    · simp only [Header.stop] at *
      omega

theorem coalesceRight_spec {r : BlockTree} (spare : List Nat) {x : Nat × Header} (h : FreeTree r)
    (hx : 0 < x.2.size) (habove : ∀ v, v ∈ r.inorder → x.2.stop ≤ v.2.addr) :
    let a := coalesceRight r spare x
    Absorbed r a.1 x a.2.2 ∧ a.2.2.2.addr = x.2.addr ∧
      ∀ v, v ∈ a.1.inorder → a.2.2.2.stop < v.2.addr := by
  rcases coalesceRight_cases spare h habove with ⟨ha, hgap⟩ | ⟨nb, r', hin, htouch, hheap, ha⟩
  · rw [ha]
    exact ⟨absorbed_refl h hx, rfl, hgap⟩
  · rw [ha]
    have hpair := h.spaced.1
    rw [hin, List.pairwise_cons] at hpair
    have hpos := h.spaced.2 nb (by simp [hin])
    refine ⟨⟨hheap, ?_, ?_, ?_⟩, rfl, fun v hv => ?_⟩
    · rw [hin]
      exact List.sublist_cons_self _ _
    · simp only
      omega
    · simp only [BlockTree.blocks, hin, List.map_cons, covered_cons]
      rw [Set.union_comm (Set.Ico nb.2.addr _), Set.union_assoc,
        Set.union_comm (Set.Ico nb.2.addr _), ← htouch, Set.Ico_union_Ico_eq_Ico]
      · simp only [Header.stop] at *
        congr 2
        omega
      · simp only [Header.stop]
        omega
      · simp only [Header.stop] at *
        omega
    · have hgap := hpair.1 v hv
      simp only [Header.stop] at *
      omega

/-- The two parts of a free tree that is split where a block apart from it starts. -/
structure SplitAround (t : BlockTree) (x : Nat × Header) : Prop where
  left_free : FreeTree (t.split nodeAddr x.2.addr).1
  right_free : FreeTree (t.split nodeAddr x.2.addr).2
  left_below : ∀ v, v ∈ (t.split nodeAddr x.2.addr).1.inorder → v.2.stop ≤ x.2.addr
  right_above : ∀ v, v ∈ (t.split nodeAddr x.2.addr).2.inorder → x.2.stop ≤ v.2.addr

theorem splitAround {t : BlockTree} {x : Nat × Header} (h : FreeTree t) (hx : 0 < x.2.size)
    (hapart : ∀ v, v ∈ t.inorder → v.2.Apart x.2) : SplitAround t x := by
  have hin := NodeTree.inorder_split nodeAddr x.2.addr t
  have hsp := h.spaced
  obtain ⟨hhl, hhr⟩ := h.heap.split nodeAddr x.2.addr
  constructor
  · exact ⟨hsp.sublist (by rw [← hin]; exact List.sublist_append_left _ _), hhl⟩
  · exact ⟨hsp.sublist (by rw [← hin]; exact List.sublist_append_right _ _), hhr⟩
  · intro v hv
    have hle := NodeTree.split_fst_le hsp.searchTree v hv
    have hvt := NodeTree.mem_of_mem_split_fst hv
    have hpos := hsp.2 v hvt
    rcases hapart v hvt with ha | ha
    · exact ha
    · simp only [nodeAddr, Header.stop] at *
      omega
  · intro v hv
    have hlt := NodeTree.lt_split_snd hsp.searchTree v hv
    have hvt := NodeTree.mem_of_mem_split_snd hv
    rcases hapart v hvt with ha | ha
    · simp only [nodeAddr, Header.stop] at *
      omega
    · exact ha

/-- A freed block apart from the free ones: the free tree stays one and covers the block too. -/
theorem coalesce_spec {t : BlockTree} (spare : List Nat) {x : Nat × Header} (h : FreeTree t)
    (hx : 0 < x.2.size) (hapart : ∀ v, v ∈ t.inorder → v.2.Apart x.2) :
    FreeTree (coalesce t spare x).1 ∧
      covered (coalesce t spare x).1.blocks =
        covered t.blocks ∪ Set.Ico x.2.addr x.2.stop := by
  have hin := NodeTree.inorder_split nodeAddr x.2.addr t
  have hpair := h.spaced.1
  rw [← hin, List.pairwise_append] at hpair
  obtain ⟨hfl, hfr, hbelow, habove⟩ := splitAround h hx hapart
  obtain ⟨hl, hstop, hlgap⟩ := coalesceLeft_spec spare hfl hx hbelow
  simp only [coalesce]
  generalize coalesceLeft (t.split nodeAddr x.2.addr).1 spare x = a at *
  obtain ⟨l', spare', x'⟩ := a
  simp only at hl hstop hlgap ⊢
  obtain ⟨hr, haddr, hrgap⟩ := coalesceRight_spec spare' hfr hl.pos (x := x')
    fun v hv => by rw [hstop]; exact habove v hv
  generalize coalesceRight (t.split nodeAddr x.2.addr).2 spare' x' = b at *
  obtain ⟨r', spare'', x''⟩ := b
  simp only at hr haddr hrgap ⊢
  rw [← haddr] at hlgap
  have hpos := hr.pos
  refine ⟨⟨⟨?_, ?_⟩, ?_⟩, ?_⟩
  · rw [NodeTree.inorder_merge, NodeTree.inorder_merge, NodeTree.inorder_leaf]
    rw [List.append_assoc, List.singleton_append, List.pairwise_append, List.pairwise_cons]
    refine ⟨hpair.1.sublist hl.stays, ⟨hrgap, hpair.2.1.sublist hr.stays⟩, fun v hv w hw => ?_⟩
    rw [List.mem_cons] at hw
    rcases hw with rfl | hw
    · exact hlgap v hv
    · have h1 := hlgap v hv
      have h2 := hrgap w hw
      simp only [Header.stop] at *
      omega
  · intro v hv
    simp only [NodeTree.inorder_merge, NodeTree.inorder_leaf, List.mem_append,
      List.mem_singleton] at hv
    rcases hv with (hv | rfl) | hv
    · exact hfl.spaced.2 v (hl.stays.mem hv)
    · exact hpos
    · exact hfr.spaced.2 v (hr.stays.mem hv)
  · exact (hl.heap.merge (NodeTree.maxHeap_leaf _ _)).merge hr.heap
  · simp only [BlockTree.blocks, NodeTree.inorder_merge, NodeTree.inorder_leaf, List.map_append,
      List.map_cons, List.map_nil, covered_append, covered_cons, covered_nil, Set.union_empty]
    have hlc := hl.covers
    have hrc := hr.covers
    simp only [BlockTree.blocks] at hlc hrc
    rw [Set.union_assoc, Set.union_comm (Set.Ico x''.2.addr _), hrc, ← Set.union_assoc,
      Set.union_right_comm, hlc, Set.union_right_comm, ← covered_append, ← List.map_append, hin]

/-- Occupied blocks from left to right; they may touch. -/
def Ordered (vs : List (Nat × Header)) : Prop :=
  vs.Pairwise (fun v w => v.2.stop ≤ w.2.addr) ∧ ∀ v, v ∈ vs → 0 < v.2.size

theorem Ordered.sublist {vs ws : List (Nat × Header)} (h : Ordered vs) (hs : ws.Sublist vs) :
    Ordered ws :=
  ⟨h.1.sublist hs, fun v hv => h.2 v (hs.mem hv)⟩

theorem Ordered.searchTree {t : BlockTree} (h : Ordered t.inorder) : t.SearchTree nodeAddr := by
  refine h.1.imp_of_mem fun {v w} hv _ hle => ?_
  have hpos := h.2 v hv
  simp only [Header.stop, nodeAddr] at *
  omega

theorem Ordered.disjoint {vs ws : List (Nat × Header)} (h : Ordered (vs ++ ws)) :
    Disjoint (covered (vs.map Prod.snd)) (covered (ws.map Prod.snd)) := by
  rw [Set.disjoint_left]
  rintro y ⟨b, hb, hbl, hbh⟩ ⟨c, hc, hcl, hch⟩
  obtain ⟨v, hv, rfl⟩ := List.mem_map.mp hb
  obtain ⟨w, hw, rfl⟩ := List.mem_map.mp hc
  have hle := (List.pairwise_append.mp h.1).2.2 v hv w hw
  omega

/-- The occupied blocks that a sweep keeps and those it frees. -/
def marked (t : BlockTree) : List (Nat × Header) := t.inorder.filter fun v => v.2.isMarked

def unmarked (t : BlockTree) : List (Nat × Header) := t.inorder.filter fun v => !v.2.isMarked

/-- No block that is freed has blocks that are kept on both sides below it. -/
def NoSplice : BlockTree → Prop
  | .nil => True
  | .node l v r =>
    NoSplice l ∧ NoSplice r ∧ (v.2.isMarked = false → marked l = [] ∨ marked r = [])

theorem covered_mono {bs cs : List Header} (h : ∀ b, b ∈ bs → b ∈ cs) :
    covered bs ⊆ covered cs := by
  rintro x ⟨b, hb, hx⟩
  exact ⟨b, h b hb, hx⟩

theorem covered_unmarked_subset (t : BlockTree) :
    covered ((unmarked t).map Prod.snd) ⊆ covered t.blocks :=
  covered_mono fun _ hb => (List.filter_sublist.map Prod.snd).mem hb

/-- What a sweep of the occupied tree `t` makes of the two trees. -/
structure Cleaned (t free : BlockTree) (p : BlockTree × BlockTree × List Nat) : Prop where
  kept : p.1.inorder = (marked t).map fun v => (v.1, unmark v.2)
  isFree : FreeTree p.2.1
  covers : covered p.2.1.blocks = covered free.blocks ∪ covered ((unmarked t).map Prod.snd)

theorem cleanup_cleaned {t free : BlockTree} (spare : List Nat) (hfree : FreeTree free)
    (hord : Ordered t.inorder) (hsplice : NoSplice t)
    (hdisj : Disjoint (covered t.blocks) (covered free.blocks)) :
    Cleaned t free (cleanup t free spare) := by
  induction t generalizing free spare with
  | nil => exact ⟨rfl, hfree, by simp [unmarked, covered_nil, cleanup]⟩
  | node l v r ihl ihr =>
    obtain ⟨hsl, hsr, hroot⟩ := hsplice
    have hordl : Ordered l.inorder := hord.sublist (List.sublist_append_left _ _)
    have hordvr : Ordered (v :: r.inorder) := hord.sublist (List.sublist_append_right _ _)
    have hordr : Ordered r.inorder := hordvr.sublist (List.sublist_cons_self _ _)
    have hlvr := Ordered.disjoint hord
    have hvr : Disjoint (covered ([v].map Prod.snd)) (covered (r.inorder.map Prod.snd)) :=
      Ordered.disjoint hordvr
    have hvpos := hordvr.2 v List.mem_cons_self
    simp only [BlockTree.blocks, NodeTree.inorder_node, List.map_append, List.map_cons,
      List.map_nil, covered_append, covered_cons, covered_nil, Set.union_empty,
      Set.disjoint_union_left, Set.disjoint_union_right] at hdisj hlvr hvr
    obtain ⟨hdl, hdv, hdr⟩ := hdisj
    have hp := ihl spare hfree hordl hsl hdl
    simp only [cleanup, cleanupTop]
    generalize cleanup l free spare = p at *
    have hpr : Disjoint (covered (BlockTree.blocks r)) (covered p.2.1.blocks) := by
      rw [hp.covers, Set.disjoint_union_right]
      exact ⟨hdr, (hlvr.2.mono_left (covered_unmarked_subset l)).symm⟩
    have hq := ihr p.2.2 hp.isFree hordr hsr hpr
    generalize cleanup r p.2.1 p.2.2 = q at *
    have hqv : Disjoint (Set.Ico v.2.addr v.2.stop) (covered q.2.1.blocks) := by
      rw [hq.covers, hp.covers, Set.disjoint_union_right, Set.disjoint_union_right]
      exact ⟨⟨hdv, (hlvr.1.mono_left (covered_unmarked_subset l)).symm⟩,
        hvr.mono_right (covered_unmarked_subset r)⟩
    cases hm : v.2.isMarked with
    | true =>
      simp only [if_true]
      refine ⟨?_, hq.isFree, ?_⟩
      · simp [marked, hm, hp.kept, hq.kept]
      · rw [hq.covers, hp.covers, Set.union_assoc, ← covered_append]
        simp [unmarked, hm]
    | false =>
      simp only [Bool.false_eq_true, if_false]
      have hcut : ∃ t', NodeTree.removeRoot p.1 v q.1 = (t', some v) ∧
          t'.inorder = p.1.inorder ++ q.1.inorder := by
        rcases hroot hm with hnil | hnil
        · have hp1 : p.1 = .nil := by
            rw [← NodeTree.inorder_eq_nil, hp.kept, hnil]
            rfl
          rw [hp1]
          exact ⟨q.1, NodeTree.removeRoot_nil_left v q.1, rfl⟩
        · have hq1 : q.1 = .nil := by
            rw [← NodeTree.inorder_eq_nil, hq.kept, hnil]
            rfl
          rw [hq1]
          exact ⟨p.1, NodeTree.removeRoot_nil_right p.1 v, by simp⟩
      obtain ⟨t', hcut, hin⟩ := hcut
      rw [hcut]
      have hapart : ∀ w, w ∈ q.2.1.inorder → w.2.Apart v.2 := by
        intro w hw
        rcases apart_of_disjoint hvpos (hq.isFree.spaced.2 w hw) (List.mem_map_of_mem hw) hqv
          with ha | ha
        · exact Or.inr ha
        · exact Or.inl ha
      obtain ⟨hft, hcov⟩ := coalesce_spec q.2.2 hq.isFree hvpos hapart
      refine ⟨?_, hft, ?_⟩
      · simp [marked, hm, hp.kept, hq.kept, hin]
      · rw [hcov, hq.covers, hp.covers]
        simp only [unmarked, NodeTree.inorder_node, List.filter_append, List.filter_cons, hm,
          Bool.not_false, if_true, List.map_append, List.map_cons, covered_append, covered_cons]
        rw [Set.union_assoc, Set.union_assoc, Set.union_comm (covered _) (Set.Ico _ _)]

end GarbageCollector
