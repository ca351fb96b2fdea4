import GarbageCollector.LargeState
import GarbageCollector.Transition
import Mathlib.Data.List.Pairwise

/-!
# The blocks of the two trees tile the large heap

Runs of `allocate_large_object` and `sweep_large_heap`. Two branches of the code break the
tiling: `allocate_large_object` puts a node into the occupied tree together with the children
it had in the free tree, and `cleanup_bst` frees the block of the successor instead of the
block of a node with two children. Runs that stay clear of both keep it.
-/

namespace GarbageCollector.LargeTiling

open GarbageCollector BinaryTree LinkedList

/-- The blocks of both trees cover the large heap and share no byte. -/
structure Tiled (cfg : Config) (free occupied : BlockTree) : Prop where
  isFree : FreeTree free
  ordered : Ordered occupied.inorder
  disjoint : Disjoint (covered occupied.blocks) (covered free.blocks)
  covers : covered occupied.blocks ∪ covered free.blocks = Set.Ico cfg.largeStart cfg.largeEnd

section Tiles

variable {cfg : Config} {free occupied t : BlockTree} {spare : List Nat} {x : Nat × Header}

theorem covered_filter (vs : List (Nat × Header)) (p : Nat × Header → Bool) :
    covered ((vs.filter p).map Prod.snd) ∪ covered ((vs.filter fun v => !p v).map Prod.snd) =
      covered (vs.map Prod.snd) := by
  ext y
  simp only [Set.mem_union, mem_covered, List.mem_map, List.mem_filter]
  constructor
  · rintro (⟨b, ⟨v, ⟨hv, -⟩, rfl⟩, hy⟩ | ⟨b, ⟨v, ⟨hv, -⟩, rfl⟩, hy⟩)
    · exact ⟨v.2, ⟨v, hv, rfl⟩, hy⟩
    · exact ⟨v.2, ⟨v, hv, rfl⟩, hy⟩
  · rintro ⟨b, ⟨v, hv, rfl⟩, hy⟩
    by_cases hp : p v = true
    · exact Or.inl ⟨v.2, ⟨v, ⟨hv, hp⟩, rfl⟩, hy⟩
    · exact Or.inr ⟨v.2, ⟨v, ⟨hv, by simpa using hp⟩, rfl⟩, hy⟩

instance : Std.Symm fun v w : Nat × Header => v.2.Apart w.2 := ⟨fun _ _ h => h.symm⟩

/-- A byte belongs to at most one of the occupied blocks. -/
theorem ordered_unique {vs : List (Nat × Header)} (h : Ordered vs) {v w : Nat × Header}
    (hv : v ∈ vs) (hw : w ∈ vs) {y : Nat} (hyv : v.2.addr ≤ y ∧ y < v.2.stop)
    (hyw : w.2.addr ≤ y ∧ y < w.2.stop) : v = w := by
  by_contra hne
  have hpair : vs.Pairwise fun v w => v.2.Apart w.2 := h.1.imp Or.inl
  rcases hpair.forall hv hw hne with ha | ha
  · omega
  · omega

theorem ordered_of_searchTree (h : t.SearchTree nodeAddr)
    (hapart : ∀ v, v ∈ t.inorder → ∀ w, w ∈ t.inorder → v ≠ w → v.2.Apart w.2)
    (hpos : ∀ v, v ∈ t.inorder → 0 < v.2.size) : Ordered t.inorder := by
  refine ⟨h.imp_of_mem fun {v w} hv hw hlt => ?_, hpos⟩
  have hne : v ≠ w := fun he => by simp [he] at hlt
  have hposw := hpos w hw
  simp only [nodeAddr] at hlt
  rcases hapart v hv w hw hne with ha | ha
  · exact ha
  · simp only [Header.stop] at *
    omega

/-- An occupied tree takes a block that shares no byte with its own. -/
theorem ordered_insert (h : Ordered t.inorder) (hx : 0 < x.2.size)
    (hd : Disjoint (Set.Ico x.2.addr x.2.stop) (covered t.blocks)) :
    Ordered (t.insert nodeAddr x).inorder ∧
      covered (BlockTree.blocks (t.insert nodeAddr x)) =
        Set.Ico x.2.addr x.2.stop ∪ covered t.blocks := by
  have hperm := NodeTree.inorder_insert_perm nodeAddr x t
  have hapart : ∀ v, v ∈ t.inorder → x.2.Apart v.2 := fun v hv =>
    apart_of_disjoint hx (h.2 v hv) (List.mem_map_of_mem hv) hd
  have hpair : t.inorder.Pairwise fun v w => v.2.Apart w.2 := h.1.imp Or.inl
  refine ⟨ordered_of_searchTree ?_ ?_ ?_, ?_⟩
  · refine h.searchTree.insert fun w hw he => ?_
    have hpos := h.2 w hw
    have ha := hapart w hw
    simp only [Header.Apart, Header.stop, nodeAddr] at *
    omega
  · intro v hv w hw hne
    rw [hperm.mem_iff, List.mem_cons] at hv hw
    rcases hv with rfl | hv
    · rcases hw with rfl | hw
      · exact absurd rfl hne
      · exact hapart w hw
    · rcases hw with rfl | hw
      · exact (hapart v hv).symm
      · exact hpair.forall hv hw hne
  · intro v hv
    rw [hperm.mem_iff, List.mem_cons] at hv
    rcases hv with rfl | hv
    · exact hx
    · exact h.2 v hv
  · rw [BlockTree.blocks, covered_perm (hperm.map Prod.snd), List.map_cons, covered_cons]
    rfl

/-- A sweep keeps the tiling when no freed block has kept blocks on both sides below it. -/
theorem Tiled.cleanup (h : Tiled cfg free occupied) (spare : List Nat)
    (hsplice : NoSplice occupied) :
    Tiled cfg (cleanup occupied free spare).2.1 (cleanup occupied free spare).1 := by
  have hc := cleanup_cleaned spare h.isFree h.ordered hsplice h.disjoint
  generalize GarbageCollector.cleanup occupied free spare = p at *
  have hkept : covered p.1.blocks = covered ((marked occupied).map Prod.snd) := by
    ext y
    simp only [BlockTree.blocks, hc.kept, mem_covered, List.map_map, List.mem_map,
      Function.comp_apply]
    constructor
    · rintro ⟨b, ⟨v, hv, rfl⟩, hy⟩
      exact ⟨v.2, ⟨v, hv, rfl⟩, hy⟩
    · rintro ⟨b, ⟨v, hv, rfl⟩, hy⟩
      exact ⟨unmark v.2, ⟨v, hv, rfl⟩, hy⟩
  have hsplit := covered_filter occupied.inorder fun v => v.2.isMarked
  refine ⟨hc.isFree, ?_, ?_, ?_⟩
  · have hsub : Ordered (marked occupied) := h.ordered.sublist List.filter_sublist
    rw [hc.kept]
    refine ⟨List.pairwise_map.mpr hsub.1, fun v hv => ?_⟩
    obtain ⟨w, hw, rfl⟩ := List.mem_map.mp hv
    exact hsub.2 w hw
  · rw [hkept, hc.covers, Set.disjoint_union_right]
    refine ⟨h.disjoint.mono_left (covered_mono fun b hb => ?_), Set.disjoint_left.mpr ?_⟩
    · exact (List.filter_sublist.map Prod.snd).mem hb
    · rintro y ⟨b, hb, hyb⟩ ⟨c, hc', hyc⟩
      obtain ⟨v, hv, rfl⟩ := List.mem_map.mp hb
      obtain ⟨w, hw, rfl⟩ := List.mem_map.mp hc'
      obtain ⟨hv, hvm⟩ := List.mem_filter.mp hv
      obtain ⟨hw, hwm⟩ := List.mem_filter.mp hw
      rw [ordered_unique h.ordered hv hw hyb hyc] at hvm
      simp [hvm] at hwm
  · rw [hkept, hc.covers, Set.union_left_comm, ← Set.union_assoc,
      Set.union_comm (covered free.blocks), ← h.covers]
    simp only [marked, unmarked, BlockTree.blocks] at hsplit ⊢
    rw [Set.union_right_comm, hsplit]

/-- The flags of the occupied nodes do not matter. -/
theorem Tiled.reflag (h : Tiled cfg free occupied) (f : Nat × Header → Nat × Header)
    (haddr : ∀ v, (f v).2.addr = v.2.addr) (hsize : ∀ v, (f v).2.size = v.2.size) :
    Tiled cfg free (occupied.map f) := by
  have hstop : ∀ v, (f v).2.stop = v.2.stop := fun v => by
    rw [Header.stop, Header.stop, haddr, hsize]
  have hcov : covered (BlockTree.blocks (occupied.map f)) = covered occupied.blocks := by
    ext y
    simp only [BlockTree.blocks, NodeTree.inorder_map, mem_covered, List.map_map, List.mem_map,
      Function.comp_apply]
    constructor
    · rintro ⟨b, ⟨v, hv, rfl⟩, hy⟩
      exact ⟨v.2, ⟨v, hv, rfl⟩, by rwa [haddr, hstop] at hy⟩
    · rintro ⟨b, ⟨v, hv, rfl⟩, hy⟩
      exact ⟨(f v).2, ⟨v, hv, rfl⟩, by rwa [haddr, hstop]⟩
  refine ⟨h.isFree, ?_, hcov ▸ h.disjoint, hcov ▸ h.covers⟩
  rw [NodeTree.inorder_map]
  refine ⟨List.pairwise_map.mpr (h.ordered.1.imp fun {v w} hle => ?_), fun v hv => ?_⟩
  · rw [hstop, haddr]
    exact hle
  · obtain ⟨w, hw, rfl⟩ := List.mem_map.mp hv
    rw [hsize]
    exact h.ordered.2 w hw

theorem freeTree_leaf (hx : 0 < x.2.size) : FreeTree (NodeTree.leaf x) := by
  refine ⟨⟨List.pairwise_singleton _ _, fun v hv => ?_⟩, NodeTree.maxHeap_leaf _ _⟩
  rw [NodeTree.inorder_leaf, List.mem_singleton] at hv
  rw [hv]
  exact hx

theorem covered_leaf : covered (BlockTree.blocks (NodeTree.leaf x)) =
    Set.Ico x.2.addr x.2.stop := by
  rw [BlockTree.blocks, NodeTree.inorder_leaf, List.map_singleton, covered_cons, covered_nil,
    Set.union_empty]

/-- The only free block is handed out whole. -/
theorem Tiled.whole (h : Tiled cfg (NodeTree.leaf x) occupied) :
    Tiled cfg .nil (occupied.insert nodeAddr x) := by
  have hx := h.isFree.spaced.2 x (by simp)
  have hd := h.disjoint
  rw [covered_leaf] at hd
  obtain ⟨hord, hcov⟩ := ordered_insert h.ordered hx hd.symm
  refine ⟨⟨⟨List.Pairwise.nil, fun _ hv => (nomatch hv)⟩, trivial⟩, hord, ?_, ?_⟩
  · rw [show BlockTree.blocks (.nil : BlockTree) = [] from rfl, covered_nil]
    exact disjoint_bot_right
  · rw [hcov, show BlockTree.blocks (.nil : BlockTree) = [] from rfl, covered_nil, Set.union_empty,
      ← h.covers, covered_leaf, Set.union_comm]

/-- The only free block is cut in two. -/
theorem Tiled.part {i j size : Nat} {b : Header} (h : Tiled cfg (NodeTree.leaf (i, b)) occupied)
    (hpos : 0 < size) (hlt : size < b.size) :
    Tiled cfg (NodeTree.leaf (j, ⟨b.addr + size, b.size - size, false⟩))
      (occupied.insert nodeAddr (i, { b with size := size })) := by
  have hd := h.disjoint
  have hcovers := h.covers
  rw [covered_leaf] at hd hcovers
  have hsplit : Set.Ico b.addr (b.addr + size) ∪ Set.Ico (b.addr + size) b.stop =
      Set.Ico b.addr b.stop := by
    refine Set.Ico_union_Ico_eq_Ico (by omega) ?_
    simp only [Header.stop]
    omega
  have hstop : b.addr + size + (b.size - size) = b.stop := by
    simp only [Header.stop]
    omega
  simp only [← hsplit, Set.disjoint_union_right] at hd hcovers
  obtain ⟨hord, hcov⟩ := ordered_insert (x := (i, { b with size := size })) h.ordered hpos
    hd.1.symm
  have hrest : covered (BlockTree.blocks
      (NodeTree.leaf (j, (⟨b.addr + size, b.size - size, false⟩ : Header)))) =
        Set.Ico (b.addr + size) b.stop := by
    rw [covered_leaf, ← hstop]
    rfl
  refine ⟨freeTree_leaf (by simp only; omega), hord, ?_, ?_⟩
  · rw [hcov, hrest, Set.disjoint_union_left]
    refine ⟨?_, hd.2⟩
    exact Set.disjoint_left.mpr fun y hy hy' => absurd hy.2 (not_lt.mpr hy'.1)
  · rw [hcov, hrest, ← hcovers, Set.union_comm (Set.Ico _ _) (covered _), Set.union_assoc]
    rfl

theorem Tiled.inside (h : Tiled cfg free occupied) {v : Nat × Header}
    (hv : v ∈ free.inorder ++ occupied.inorder) :
    0 < v.2.size ∧ cfg.largeStart ≤ v.2.addr ∧ v.2.stop ≤ cfg.largeEnd := by
  have hpos : 0 < v.2.size := by
    rcases List.mem_append.mp hv with hv | hv
    · exact h.isFree.spaced.2 v hv
    · exact h.ordered.2 v hv
  have hin (y : Nat) (hy : v.2.addr ≤ y ∧ y < v.2.stop) :
      y ∈ Set.Ico cfg.largeStart cfg.largeEnd := by
    rw [← h.covers]
    rcases List.mem_append.mp hv with hv | hv
    · exact Or.inr ⟨v.2, List.mem_map_of_mem hv, hy⟩
    · exact Or.inl ⟨v.2, List.mem_map_of_mem hv, hy⟩
  have hfirst := hin v.2.addr (by simp only [Header.stop]; omega)
  have hlast := hin (v.2.stop - 1) (by simp only [Header.stop]; omega)
  simp only [Set.mem_Ico, Header.stop] at *
  omega

/-- Each byte of the large heap lies in exactly one block. -/
theorem Tiled.exists_unique (h : Tiled cfg free occupied) {y : Nat} (hlo : cfg.largeStart ≤ y)
    (hhi : y < cfg.largeEnd) :
    ∃! v, v ∈ free.inorder ++ occupied.inorder ∧ v.2.addr ≤ y ∧ y < v.2.stop := by
  have hy : y ∈ covered occupied.blocks ∪ covered free.blocks := by
    rw [h.covers]
    exact ⟨hlo, hhi⟩
  have hfree : ∀ v, v ∈ free.inorder → v.2.addr ≤ y ∧ y < v.2.stop →
      y ∈ covered free.blocks := fun v hv hyv => ⟨v.2, List.mem_map_of_mem hv, hyv⟩
  have hocc : ∀ v, v ∈ occupied.inorder → v.2.addr ≤ y ∧ y < v.2.stop →
      y ∈ covered occupied.blocks := fun v hv hyv => ⟨v.2, List.mem_map_of_mem hv, hyv⟩
  have hord : Ordered free.inorder :=
    ⟨h.isFree.spaced.1.imp le_of_lt, h.isFree.spaced.2⟩
  obtain ⟨v, hv, hyv⟩ :
      ∃ v, v ∈ free.inorder ++ occupied.inorder ∧ v.2.addr ≤ y ∧ y < v.2.stop := by
    rcases hy with ⟨b, hb, hyb⟩ | ⟨b, hb, hyb⟩
    · obtain ⟨v, hv, rfl⟩ := List.mem_map.mp hb
      exact ⟨v, List.mem_append_right _ hv, hyb⟩
    · obtain ⟨v, hv, rfl⟩ := List.mem_map.mp hb
      exact ⟨v, List.mem_append_left _ hv, hyb⟩
  refine ⟨v, ⟨hv, hyv⟩, fun w hw => ?_⟩
  obtain ⟨hw, hyw⟩ := hw
  rcases List.mem_append.mp hv with hv | hv
  · rcases List.mem_append.mp hw with hw | hw
    · exact ordered_unique hord hw hv hyw hyv
    · exact absurd (hfree v hv hyv) (Set.disjoint_left.mp h.disjoint (hocc w hw hyw))
  · rcases List.mem_append.mp hw with hw | hw
    · exact absurd (hfree w hw hyw) (Set.disjoint_left.mp h.disjoint (hocc v hv hyv))
    · exact ordered_unique h.ordered hw hv hyw hyv

end Tiles

/-- Any choice of the flags of the nodes below `p`. -/
def setFlags (flags : Nat → Bool) : Nat → Nodes → Option Nat → Option Nodes
  | 0, _, _ => none
  | _ + 1, nodes, none => some nodes
  | fuel + 1, nodes, some i => do
    let nodes ← setFlags flags fuel nodes (nodes i).left
    let nodes ← setFlags flags fuel nodes (nodes i).right
    some (setBlock nodes i { (nodes i).block with isMarked := flags i })

inductive Action where
  | allocate (n fuel : Nat)
  | sweep (flags : Nat → Bool) (fuel : Nat)

def Action.fuel : Action → Nat
  | .allocate _ fuel => fuel
  | .sweep _ fuel => fuel

/-- A call. The bound on the depth of its recursions is above the number of nodes. -/
def step (cfg : Config) (s : LargeAllocator) (a : Action) : Option LargeAllocator :=
  if cfg.treenodeCount + 1 < a.fuel then
    match a with
    | .allocate n fuel =>
      if maxObjectSize < n ∧ n ≤ cfg.heapSize then (allocateLargeObject fuel s n).map Prod.fst
      else none
    | .sweep flags fuel =>
      (setFlags flags fuel s.nodes s.occupiedRoot).bind fun nodes =>
        sweepLargeHeap fuel { s with nodes := nodes }
  else none

/-- No node that a sweep frees has kept nodes on both sides below it. -/
def FreesOneSided (flags : Nat → Bool) (nodes : Nodes) (root : Option Nat) : Prop :=
  ∀ i, Below nodes root i → flags i = false →
    (∀ j, Below nodes (nodes i).left j → flags j = false) ∨
      ∀ j, Below nodes (nodes i).right j → flags j = false

/-- The condition under which a call keeps the tiling. -/
def KeepsTiling (s : LargeAllocator) : Action → Prop
  | .allocate n _ => FitsChildless s (getSizeWithAlignment n)
  | .sweep flags _ => FreesOneSided flags s.nodes s.occupiedRoot

/-- Two trees and the spare nodes share the tree nodes between them and the blocks of the
trees tile the large heap. -/
structure Tiling (cfg : Config) (s : LargeAllocator) (free occupied : BlockTree)
    (spare : List Nat) : Prop where
  freeTree : Repr s.nodes s.freeRoot free
  occupiedTree : Repr s.nodes s.occupiedRoot occupied
  spareList : IsList (fun i => (s.nodes i).right) s.treenodeListHead spare
  free_search : free.SearchTree nodeAddr
  free_heap : free.MaxHeap nodeSize
  occupied_search : occupied.SearchTree nodeAddr
  inside : ∀ v, v ∈ free.inorder ++ occupied.inorder →
    0 < v.2.size ∧ cfg.largeStart ≤ v.2.addr ∧ v.2.stop ≤ cfg.largeEnd
  cover : ∀ y, cfg.largeStart ≤ y → y < cfg.largeEnd →
    ∃! v, v ∈ free.inorder ++ occupied.inorder ∧ v.2.addr ≤ y ∧ y < v.2.stop
  no_touch : ∀ v, v ∈ free.inorder → ∀ w, w ∈ free.inorder → v.2.stop ≠ w.2.addr
  one_place : (free.ids ++ occupied.ids ++ spare).Perm (List.range cfg.treenodeCount)

section Runs

variable {cfg : Config} {s s' : LargeAllocator} {free occupied t : BlockTree} {spare : List Nat}
  {nodes : Nodes} {p : Option Nat} {fuel : Nat}

def flagged (flags : Nat → Bool) (v : Nat × Header) : Nat × Header :=
  (v.1, { v.2 with isMarked := flags v.1 })

@[simp] theorem ids_flagged (flags : Nat → Bool) (t : BlockTree) :
    BlockTree.ids (t.map (flagged flags)) = t.ids := by
  rw [BlockTree.ids, NodeTree.inorder_map, List.map_map]
  rfl

theorem setFlags_repr (flags : Nat → Bool) (h : Repr nodes p t) (hn : t.ids.Nodup)
    (hf : t.size < fuel) :
    ∃ nodes', setFlags flags fuel nodes p = some nodes' ∧
      Repr nodes' p (t.map (flagged flags)) ∧ SameOff nodes nodes' t.ids := by
  induction t generalizing p fuel nodes with
  | nil =>
    cases h
    obtain ⟨fuel, rfl⟩ := Nat.exists_eq_add_one_of_ne_zero (Nat.ne_of_gt (Nat.zero_lt_of_lt hf))
    exact ⟨nodes, rfl, rfl, SameOff.refl⟩
  | node l v r ihl ihr =>
    obtain ⟨rfl, hb, hl, hr⟩ := h
    obtain ⟨hnl, hnr, hvl, hvr, hd⟩ := nodup_ids_node.mp hn
    obtain ⟨fuel, rfl⟩ := Nat.exists_eq_add_one_of_ne_zero (Nat.ne_of_gt (Nat.zero_lt_of_lt hf))
    simp only [NodeTree.size] at hf
    obtain ⟨nodes₁, hrun₁, hl₁, hsame₁⟩ := ihl hl hnl (by omega : l.size < fuel)
    have hv₁ := hsame₁ v.1 hvl
    have hr₁ : Repr nodes₁ (nodes₁ v.1).right r := by
      rw [hv₁]
      exact hr.frame hsame₁ (List.disjoint_symm hd)
    obtain ⟨nodes₂, hrun₂, hr₂, hsame₂⟩ := ihr hr₁ hnr (by omega : r.size < fuel)
    have hv₂ := hsame₂ v.1 hvr
    have hl₂ : Repr nodes₂ (nodes v.1).left (l.map (flagged flags)) :=
      hl₁.frame hsame₂ (by rw [ids_flagged]; exact hd)
    refine ⟨setBlock nodes₂ v.1 { (nodes₂ v.1).block with isMarked := flags v.1 }, ?_,
      ⟨rfl, ?_, ?_, ?_⟩, ?_⟩
    · simp only [setFlags, hrun₁, hrun₂, Option.bind_eq_bind, Option.bind_some]
    · simp only [flagged, setBlock, Function.update_self, hv₂, hv₁, hb]
    · simp only [flagged, setBlock, Function.update_self, hv₂, hv₁]
      exact hl₂.update_of_not_mem (by rwa [ids_flagged]) _
    · simp only [flagged, setBlock, Function.update_self, hv₂]
      exact hr₂.update_of_not_mem (by rwa [ids_flagged]) _
    · refine (hsame₁.mono fun i hi => ?_).trans ((hsame₂.mono fun i hi => ?_).trans
        (sameOff_update _ ?_))
      · simp [hi]
      · simp [hi]
      · simp

theorem noSplice_of_freesOneSided {flags : Nat → Bool} (h : Repr nodes p t)
    (hone : FreesOneSided flags nodes p) : NoSplice (t.map (flagged flags)) := by
  induction t generalizing p with
  | nil => trivial
  | node l v r ihl ihr =>
    obtain ⟨rfl, -, hl, hr⟩ := h
    refine ⟨ihl hl fun i hi => hone i (.left hi), ihr hr fun i hi => hone i (.right hi),
      fun hv => ?_⟩
    have hnone : ∀ {q : Option Nat} {u : BlockTree}, Repr nodes q u →
        (∀ j, Below nodes q j → flags j = false) → marked (u.map (flagged flags)) = [] := by
      intro q u hu hoff
      rw [marked, List.filter_eq_nil_iff, NodeTree.inorder_map]
      intro w hw
      obtain ⟨x, hx, rfl⟩ := List.mem_map.mp hw
      have hbelow := (below_iff hu x.1).mpr (List.mem_map_of_mem hx)
      simp [flagged, hoff x.1 hbelow]
    rcases hone v.1 (.here _) hv with hoff | hoff
    · exact Or.inl (hnone hl hoff)
    · exact Or.inr (hnone hr hoff)

/-- The trees behind a state, for the induction over a run. -/
def TiledState (cfg : Config) (s : LargeAllocator) : Prop :=
  ∃ free occupied spare, Shape cfg s free occupied spare ∧ Tiled cfg free occupied

theorem init_tiled (cfg : Config) :
    Tiled cfg (NodeTree.leaf (0, ⟨cfg.largeStart, cfg.heapSize, false⟩)) .nil := by
  refine ⟨freeTree_leaf cfg.heapSize_pos, ?_, ?_, ?_⟩
  · exact ⟨List.Pairwise.nil, fun _ hv => (nomatch hv)⟩
  · rw [show BlockTree.blocks (.nil : BlockTree) = [] from rfl, covered_nil]
    exact disjoint_bot_left
  · rw [show BlockTree.blocks (.nil : BlockTree) = [] from rfl, covered_nil, Set.empty_union,
      covered_leaf]
    rfl

theorem init_tiledState (cfg : Config) : TiledState cfg (initLargeAllocator cfg) :=
  ⟨_, _, _, init_shape cfg, init_tiled cfg⟩

theorem allocated_tiledState {n : Nat} {r : Option Nat} (hn : 0 < n)
    (h : Tiled cfg free occupied)
    (ha : Allocated cfg s' n free occupied spare r) : TiledState cfg s' := by
  cases ha with
  | failed hs => exact ⟨_, _, _, hs, h⟩
  | whole i b hfree hsize hs =>
    subst hfree
    exact ⟨_, _, _, hs, h.whole⟩
  | part i j b rest hfree hspare hsize hs =>
    subst hfree
    exact ⟨_, _, _, hs, h.part hn hsize⟩

/-- A call that meets the condition returns and keeps the tiling. -/
theorem step_tiledState {a : Action} (h : TiledState cfg s) (hok : KeepsTiling s a)
    (hf : cfg.treenodeCount + 1 < a.fuel)
    (hsize : ∀ n fuel, a = .allocate n fuel → maxObjectSize < n ∧ n ≤ cfg.heapSize) :
    ∃ s', step cfg s a = some s' ∧ TiledState cfg s' := by
  obtain ⟨free, occupied, spare, hshape, htiled⟩ := h
  cases a with
  | allocate n fuel =>
    have hf' : cfg.treenodeCount + 1 < fuel := hf
    obtain ⟨s', r, hrun, hall⟩ := allocateLargeObject_repr hshape n hok hf'
    have hn := hsize n fuel rfl
    have hpos : 0 < getSizeWithAlignment n := by
      have := le_getSizeWithAlignment n
      omega
    simp only [step, if_pos hf, if_pos hn, hrun, Option.map_some]
    exact ⟨s', rfl, allocated_tiledState hpos htiled hall⟩
  | sweep flags fuel =>
    have hlen := hshape.length
    have hnd := List.nodup_append'.mp hshape.nodup
    have hf' : cfg.treenodeCount + 1 < fuel := hf
    obtain ⟨nodes', hrun, hrep, hsame⟩ := setFlags_repr flags hshape.occupiedTree hnd.1
      (by omega : occupied.size < fuel)
    have hd := List.disjoint_append_right.mp hnd.2.2
    have hshape' :
        Shape cfg { s with nodes := nodes' } free (occupied.map (flagged flags)) spare := by
      refine ⟨hshape.freeTree.frame hsame (List.disjoint_symm hd.1), hrep,
        hshape.spares.frame hsame (List.disjoint_symm hd.2), ?_⟩
      rw [ids_flagged]
      exact hshape.ids
    obtain ⟨s', hrun', hswept⟩ := sweepLargeHeap_repr hshape' hf'
    refine ⟨s', ?_, _, _, _, hswept, ?_⟩
    · simp only [step, if_pos hf, hrun, Option.bind_some, hrun']
    · refine Tiled.cleanup (htiled.reflag (flagged flags) (fun _ => rfl) fun _ => rfl) spare ?_
      exact noSplice_of_freesOneSided hshape.occupiedTree hok

theorem TiledState.tiling (h : TiledState cfg s) :
    ∃ free occupied spare, Tiling cfg s free occupied spare := by
  obtain ⟨free, occupied, spare, hshape, htiled⟩ := h
  refine ⟨free, occupied, spare, hshape.freeTree, hshape.occupiedTree, hshape.spares.list,
    htiled.isFree.spaced.searchTree, htiled.isFree.heap, htiled.ordered.searchTree,
    fun v hv => htiled.inside hv, fun y hlo hhi => htiled.exists_unique hlo hhi, ?_, ?_⟩
  · have hsym : Std.Symm fun v w : Nat × Header => v.2.stop ≠ w.2.addr ∧ w.2.stop ≠ v.2.addr :=
      ⟨fun _ _ h => h.symm⟩
    have hgap : free.inorder.Pairwise fun v w => v.2.stop ≠ w.2.addr ∧ w.2.stop ≠ v.2.addr := by
      refine htiled.isFree.spaced.1.imp_of_mem fun {v w} hv hw hlt => ?_
      have hpos := htiled.isFree.spaced.2 w hw
      simp only [Header.stop] at *
      omega
    intro v hv w hw
    by_cases hvw : v = w
    · have hpos := htiled.isFree.spaced.2 v hv
      rw [← hvw, Header.stop]
      omega
    · exact (hgap.forall hv hw hvw).1
  · rw [List.append_assoc]
    exact (List.perm_append_comm_assoc _ _ _).trans hshape.ids

theorem reachable_tiledState
    (h : Transition.Reachable (· = initLargeAllocator cfg) (step cfg) KeepsTiling s) :
    TiledState cfg s := by
  refine h.invariant (P := TiledState cfg) ?_ ?_
  · rintro s rfl
    exact init_tiledState cfg
  · intro s a s' hs hok hstep
    have hf : cfg.treenodeCount + 1 < a.fuel := by
      by_contra hf
      simp [step, if_neg hf] at hstep
    have hsize : ∀ n fuel, a = .allocate n fuel → maxObjectSize < n ∧ n ≤ cfg.heapSize := by
      rintro n fuel rfl
      by_contra hn
      simp [step, if_neg hn] at hstep
    obtain ⟨t, ht, htiled⟩ := step_tiledState hs hok hf hsize
    rw [ht] at hstep
    cases hstep
    exact htiled

/-- In every run whose calls meet the condition the blocks of the two trees tile the large
heap, in order, and each node is in one place. -/
theorem runs_tiled
    (h : Transition.Reachable (· = initLargeAllocator cfg) (step cfg) KeepsTiling s) :
    ∃ free occupied spare, Tiling cfg s free occupied spare :=
  (reachable_tiledState h).tiling

end Runs

/-- A run without sweeps. -/
def AllocatesOnly (s : LargeAllocator) : Action → Prop
  | .allocate n _ => FitsChildless s (getSizeWithAlignment n)
  | .sweep _ _ => False

instance (s : LargeAllocator) (a : Action) : Decidable (AllocatesOnly s a) :=
  match a with
  | .allocate n _ => inferInstanceAs (Decidable (FitsChildless s (getSizeWithAlignment n)))
  | .sweep _ _ => isFalse id

/-- Two allocations, and a sweep that frees the first block. -/
theorem runs_tiled_sweep :
    ∃ s, s.occupiedRoot = some 1 ∧ s.freeRoot = some 2 ∧
      ∃ free occupied spare, Tiling twoBlocks s free occupied spare := by
  have hstart : Transition.Reachable (· = initLargeAllocator twoBlocks) (step twoBlocks)
      AllocatesOnly (initLargeAllocator twoBlocks) := .init rfl
  obtain ⟨s, hr, hleft, hsweep⟩ := hstart.exists_of_run [.allocate 2010 6, .allocate 2016 6]
    (fun s => (s.nodes 0).left = none ∧
      (step twoBlocks s (.sweep (fun i => i != 0) 6)).any (fun s' =>
        decide (s'.occupiedRoot = some 1 ∧ s'.freeRoot = some 2)) = true) (by decide +kernel)
  have hr' : Transition.Reachable (· = initLargeAllocator twoBlocks) (step twoBlocks)
      KeepsTiling s := by
    refine hr.mono fun s a ha => ?_
    cases a with
    | allocate n fuel => exact ha
    | sweep flags fuel => exact ha.elim
  cases hs : step twoBlocks s (.sweep (fun i => i != 0) 6) with
  | none => simp [hs] at hsweep
  | some s' =>
    have hroots : s'.occupiedRoot = some 1 ∧ s'.freeRoot = some 2 := by simpa [hs] using hsweep
    have hone : KeepsTiling s (.sweep (fun i => i != 0) 6) := by
      intro i _ hi
      have hi0 : i = 0 := by simpa using hi
      subst hi0
      refine Or.inl fun j hj => ?_
      rw [hleft] at hj
      cases hj
    exact ⟨s', hroots.1, hroots.2, runs_tiled (.step _ hr' hone hs)⟩

/-- Three objects of 2016 bytes are allocated and the first is freed. A request for the 2144
bytes left takes the free root with its left child, which is then in both trees. -/
theorem node_in_both_trees :
    ¬ ∀ (cfg : Config) (s : LargeAllocator),
      Transition.Reachable (· = initLargeAllocator cfg) (step cfg) Transition.anyStep s →
        ∃ free occupied spare, Tiling cfg s free occupied spare := by
  intro h
  obtain ⟨s, hr, hfree, hocc, h₁, h₂, h₃⟩ := Transition.reachable_of_run
    (initLargeAllocator twoBlocks)
    [.allocate 2016 6, .allocate 2016 6, .allocate 2016 6, .sweep (fun i => i != 0) 6,
      .allocate 2144 6]
    (fun s => s.freeRoot = some 0 ∧ s.occupiedRoot = some 1 ∧ (s.nodes 1).right = some 2 ∧
      (s.nodes 2).right = some 3 ∧ (s.nodes 3).left = some 0)
    (step twoBlocks) Transition.anyStep (by decide +kernel)
  obtain ⟨free, occupied, spare, ht⟩ := h twoBlocks s hr
  have hin : 0 ∈ free.ids := (below_iff ht.freeTree 0).mp (hfree ▸ .here 0)
  have hin' : 0 ∈ occupied.ids := by
    refine (below_iff ht.occupiedTree 0).mp (hocc ▸ .right ?_)
    rw [h₁]
    refine .right ?_
    rw [h₂]
    refine .left ?_
    rw [h₃]
    exact .here 0
  have hn := (List.nodup_append'.mp (ht.one_place.nodup_iff.mpr List.nodup_range)).1
  exact (List.nodup_append'.mp hn).2.2 hin hin'

end GarbageCollector.LargeTiling
