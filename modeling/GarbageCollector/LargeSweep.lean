import GarbageCollector.LargeTiling

/-!
# The sweep of the large heap, for any tree and any flags

`cleanup_bst` keeps exactly the marked blocks in every case. The freed bytes are the right ones
exactly when no freed node has kept nodes on both sides below it: such a node takes the block of
its successor, and it is the successor's block that goes into the free tree.
-/

namespace GarbageCollector.LargeSweep

open GarbageCollector BinaryTree LinkedList LargeTiling

/-- Both trees are search trees, the free one a heap without touching blocks, and each byte of
the large heap lies in exactly one block. -/
structure Tiles (cfg : Config) (free occupied : BlockTree) : Prop where
  free_search : free.SearchTree nodeAddr
  free_heap : free.MaxHeap nodeSize
  no_touch : ∀ v, v ∈ free.inorder → ∀ w, w ∈ free.inorder → v.2.stop ≠ w.2.addr
  occupied_search : occupied.SearchTree nodeAddr
  inside : ∀ v, v ∈ free.inorder ++ occupied.inorder →
    0 < v.2.size ∧ cfg.largeStart ≤ v.2.addr ∧ v.2.stop ≤ cfg.largeEnd
  cover : ∀ y, cfg.largeStart ≤ y → y < cfg.largeEnd →
    ∃! v, v ∈ free.inorder ++ occupied.inorder ∧ v.2.addr ≤ y ∧ y < v.2.stop

section Tiles

variable {cfg : Config} {free occupied t : BlockTree} {v w : Nat × Header} {y : Nat}

theorem Tiles.unique (h : Tiles cfg free occupied) (hv : v ∈ free.inorder ++ occupied.inorder)
    (hw : w ∈ free.inorder ++ occupied.inorder) (hyv : v.2.addr ≤ y ∧ y < v.2.stop)
    (hyw : w.2.addr ≤ y ∧ y < w.2.stop) : v = w := by
  obtain ⟨-, hlo, hhi⟩ := h.inside v hv
  obtain ⟨u, -, hu⟩ := h.cover y (by omega) (by omega)
  rw [hu v ⟨hv, hyv⟩, hu w ⟨hw, hyw⟩]

/-- Two blocks in address order do not overlap. -/
theorem Tiles.stop_le (h : Tiles cfg free occupied) (hv : v ∈ free.inorder ++ occupied.inorder)
    (hw : w ∈ free.inorder ++ occupied.inorder) (hlt : v.2.addr < w.2.addr) :
    v.2.stop ≤ w.2.addr := by
  by_contra hle
  have hpos := (h.inside w hw).1
  have hvw := h.unique hv hw (y := w.2.addr) ⟨hlt.le, by omega⟩
    ⟨le_rfl, by simp only [Header.stop]; omega⟩
  rw [hvw] at hlt
  exact lt_irrefl _ hlt

theorem Tiles.tiled (h : Tiles cfg free occupied) (hd : List.Disjoint occupied.ids free.ids) :
    Tiled cfg free occupied := by
  constructor
  · refine ⟨⟨?_, fun v hv => (h.inside v (List.mem_append_left _ hv)).1⟩, h.free_heap⟩
    refine h.free_search.imp_of_mem fun {v w} hv hw hlt => ?_
    have hle := h.stop_le (List.mem_append_left _ hv) (List.mem_append_left _ hw) hlt
    exact lt_of_le_of_ne hle (h.no_touch v hv w hw)
  · refine ⟨?_, fun v hv => (h.inside v (List.mem_append_right _ hv)).1⟩
    refine h.occupied_search.imp_of_mem fun {v w} hv hw hlt => ?_
    exact h.stop_le (List.mem_append_right _ hv) (List.mem_append_right _ hw) hlt
  · rw [Set.disjoint_left]
    rintro y ⟨b, hb, hyb⟩ ⟨c, hc, hyc⟩
    obtain ⟨v, hv, rfl⟩ := List.mem_map.mp hb
    obtain ⟨w, hw, rfl⟩ := List.mem_map.mp hc
    have hvw := h.unique (List.mem_append_right _ hv) (List.mem_append_left _ hw) hyb hyc
    subst hvw
    exact hd (List.mem_map_of_mem hv) (List.mem_map_of_mem hw)
  · ext y
    constructor
    · rintro (⟨b, hb, hyb⟩ | ⟨b, hb, hyb⟩)
      · obtain ⟨v, hv, rfl⟩ := List.mem_map.mp hb
        obtain ⟨-, hlo, hhi⟩ := h.inside v (List.mem_append_right _ hv)
        exact ⟨by omega, by omega⟩
      · obtain ⟨v, hv, rfl⟩ := List.mem_map.mp hb
        obtain ⟨-, hlo, hhi⟩ := h.inside v (List.mem_append_left _ hv)
        exact ⟨by omega, by omega⟩
    · rintro ⟨hlo, hhi⟩
      obtain ⟨v, ⟨hv, hyv⟩, -⟩ := h.cover y hlo hhi
      rcases List.mem_append.mp hv with hv | hv
      · exact Or.inr ⟨v.2, List.mem_map_of_mem hv, hyv⟩
      · exact Or.inl ⟨v.2, List.mem_map_of_mem hv, hyv⟩

end Tiles

section Kept

variable {t l r free : BlockTree} {v w x : Nat × Header} {y : Nat}

/-- A freed root takes the block of its successor with it into the tree, so the blocks of the
subtrees are all kept. -/
theorem blocks_removeRoot (l r : BlockTree) (v : Nat × Header) :
    BlockTree.blocks (NodeTree.removeRoot l v r).1 = l.blocks ++ r.blocks := by
  rcases NodeTree.removeRoot_cases l v r with ⟨rfl, h⟩ | ⟨rfl, h⟩ | ⟨m, hr, -, h⟩
  · rw [h]
    rfl
  · rw [h]
    exact (List.append_nil _).symm
  · rw [h]
    simp [BlockTree.blocks, hr]

/-- Whatever the shape of the tree, the marked blocks are kept and lose their flag. -/
theorem cleanup_blocks (t free : BlockTree) (spare : List Nat) :
    (cleanup t free spare).1.blocks = (marked t).map fun v => unmark v.2 := by
  induction t generalizing free spare with
  | nil => rfl
  | node l v r ihl ihr =>
    have hl := ihl free spare
    simp only [cleanup, cleanupTop]
    generalize cleanup l free spare = p at *
    have hr := ihr p.2.1 p.2.2
    generalize cleanup r p.2.1 p.2.2 = q at *
    have hmarked : marked (NodeTree.node l v r) =
        marked l ++ (if v.2.isMarked = true then [v] else []) ++ marked r := by
      simp only [marked, NodeTree.inorder_node, List.filter_append, List.filter_cons]
      split <;> simp
    rw [hmarked, List.map_append, List.map_append, ← hl, ← hr]
    by_cases hm : v.2.isMarked = true
    · simp [hm, BlockTree.blocks]
    · have hblocks := blocks_removeRoot p.1 q.1 v
      rw [if_neg hm, if_neg hm]
      generalize NodeTree.removeRoot p.1 v q.1 = c at *
      obtain ⟨t', o⟩ := c
      cases o <;> simpa using hblocks

theorem cleanup_eq_nil (spare : List Nat) :
    (cleanup t free spare).1 = .nil ↔ marked t = [] := by
  rw [← NodeTree.inorder_eq_nil, ← List.map_eq_nil_iff (f := Prod.snd)]
  change (cleanup t free spare).1.blocks = [] ↔ _
  rw [cleanup_blocks, List.map_eq_nil_iff]

theorem covered_remove (a : Nat) (t : BlockTree) :
    covered (BlockTree.blocks (t.remove Header.addr a).1) ⊆ covered t.blocks := by
  apply covered_mono
  intro b hb
  obtain ⟨v, hv, rfl⟩ := List.mem_map.mp hb
  exact NodeTree.remove_contents Header.addr a t v hv

theorem coalesceLeft_subset (spare : List Nat) (l : BlockTree) (x : Nat × Header) :
    covered (coalesceLeft l spare x).1.blocks ⊆ covered l.blocks ∧
      Set.Ico (coalesceLeft l spare x).2.2.2.addr (coalesceLeft l spare x).2.2.2.stop ⊆
        covered l.blocks ∪ Set.Ico x.2.addr x.2.stop := by
  rw [coalesceLeft]
  split
  · exact ⟨subset_rfl, Set.subset_union_right⟩
  rename_i nb hnb
  split
  · rename_i htouch
    refine ⟨covered_remove _ l, ?_⟩
    rintro y ⟨hlo, hhi⟩
    rw [NodeTree.rightmost_eq_last] at hnb
    by_cases hy : y < x.2.addr
    · exact Or.inl ⟨nb.2, List.mem_map_of_mem (List.mem_of_getLast? hnb), hlo, by omega⟩
    · refine Or.inr ⟨by omega, ?_⟩
      simp only [Header.stop] at *
      omega
  · exact ⟨subset_rfl, Set.subset_union_right⟩

theorem coalesceRight_subset (spare : List Nat) (r : BlockTree) (x : Nat × Header) :
    covered (coalesceRight r spare x).1.blocks ⊆ covered r.blocks ∧
      Set.Ico (coalesceRight r spare x).2.2.2.addr (coalesceRight r spare x).2.2.2.stop ⊆
        covered r.blocks ∪ Set.Ico x.2.addr x.2.stop := by
  rw [coalesceRight]
  split
  · exact ⟨subset_rfl, Set.subset_union_right⟩
  rename_i nb hnb
  split
  · rename_i htouch
    refine ⟨covered_remove _ r, ?_⟩
    rintro y ⟨hlo, hhi⟩
    rw [NodeTree.leftmost_eq_head] at hnb
    by_cases hy : y < x.2.stop
    · exact Or.inr ⟨hlo, hy⟩
    · refine Or.inl ⟨nb.2, List.mem_map_of_mem (List.mem_of_mem_head? hnb), by omega, ?_⟩
      simp only [Header.stop] at *
      omega
  · exact ⟨subset_rfl, Set.subset_union_right⟩

theorem covered_merge (t t' : BlockTree) :
    covered (BlockTree.blocks (NodeTree.merge nodeSize t t')) =
      covered t.blocks ∪ covered t'.blocks := by
  rw [BlockTree.blocks, NodeTree.inorder_merge, List.map_append, covered_append]
  rfl

/-- An insertion with coalescing covers no byte that neither the tree nor the block had. -/
theorem coalesce_subset (t : BlockTree) (spare : List Nat) (x : Nat × Header) :
    covered (coalesce t spare x).1.blocks ⊆ covered t.blocks ∪ Set.Ico x.2.addr x.2.stop := by
  have hsplit : covered (BlockTree.blocks (t.split nodeAddr x.2.addr).1) ∪
      covered (BlockTree.blocks (t.split nodeAddr x.2.addr).2) = covered t.blocks := by
    rw [BlockTree.blocks, BlockTree.blocks, ← covered_append, ← List.map_append,
      NodeTree.inorder_split]
    rfl
  rw [← hsplit]
  simp only [coalesce]
  obtain ⟨hl, hlx⟩ := coalesceLeft_subset spare (t.split nodeAddr x.2.addr).1 x
  generalize coalesceLeft (t.split nodeAddr x.2.addr).1 spare x = a at *
  obtain ⟨hr, hrx⟩ := coalesceRight_subset a.2.1 (t.split nodeAddr x.2.addr).2 a.2.2
  generalize coalesceRight (t.split nodeAddr x.2.addr).2 a.2.1 a.2.2 = b at *
  rw [covered_merge, covered_merge, covered_leaf]
  rintro y ((hy | hy) | hy)
  · exact Or.inl (Or.inl (hl hy))
  · rcases hrx hy with hy | hy
    · exact Or.inl (Or.inr hy)
    · rcases hlx hy with hy | hy
      · exact Or.inl (Or.inl hy)
      · exact Or.inr hy
  · exact Or.inl (Or.inr (hr hy))

end Kept

/-- The freed nodes with kept nodes on both sides below them. -/
def Spliced : BlockTree → Nat × Header → Prop
  | .nil, _ => False
  | .node l v r, w =>
    Spliced l w ∨ Spliced r w ∨
      w = v ∧ v.2.isMarked = false ∧ marked l ≠ [] ∧ marked r ≠ []

section Freed

variable {t l r free : BlockTree} {v w x : Nat × Header} {y : Nat}

theorem noSplice_iff : NoSplice t ↔ ∀ w, ¬ Spliced t w := by
  induction t with
  | nil => simp [NoSplice, Spliced]
  | node l v r ihl ihr =>
    simp only [NoSplice, Spliced, ihl, ihr]
    grind

theorem Spliced.unmarked (h : Spliced t w) : w ∈ t.inorder ∧ w.2.isMarked = false := by
  induction t with
  | nil => exact h.elim
  | node l v r ihl ihr =>
    rcases h with h | h | ⟨rfl, h, -⟩
    · exact ⟨by simp [ihl h], (ihl h).2⟩
    · exact ⟨by simp [ihr h], (ihr h).2⟩
    · exact ⟨by simp, h⟩

/-- A byte that lies in no block but that of a spliced node does not become free. -/
theorem spliced_lost (spare : List Nat) (hord : Ordered t.inorder) (hfree : y ∉ covered free.blocks)
    (hy : ∀ v, v ∈ t.inorder → v.2.addr ≤ y ∧ y < v.2.stop → Spliced t v) :
    y ∉ covered (cleanup t free spare).2.1.blocks := by
  induction t generalizing free spare with
  | nil => exact hfree
  | node l v r ihl ihr =>
    have hordl : Ordered l.inorder := hord.sublist (List.sublist_append_left _ _)
    have hordvr : Ordered (v :: r.inorder) := hord.sublist (List.sublist_append_right _ _)
    have hordr : Ordered r.inorder := hordvr.sublist (List.sublist_cons_self _ _)
    -- the byte lies in one block at most
    have hone : ∀ w u, w ∈ (NodeTree.node l v r).inorder → u ∈ (NodeTree.node l v r).inorder →
        w.2.addr ≤ y ∧ y < w.2.stop → u.2.addr ≤ y ∧ y < u.2.stop → w = u :=
      fun w u hw hu hyw hyu => ordered_unique hord hw hu hyw hyu
    have hnodup : (NodeTree.node l v r).inorder.Nodup :=
      (hord.searchTree).imp fun hlt he => by simp [he] at hlt
    rw [NodeTree.inorder_node, List.nodup_append', List.nodup_cons] at hnodup
    obtain ⟨-, ⟨hvr, -⟩, hlvr⟩ := hnodup
    have hyl : ∀ w, w ∈ l.inorder → w.2.addr ≤ y ∧ y < w.2.stop → Spliced l w := by
      intro w hw hyw
      rcases hy w (by simp [hw]) hyw with h | h | ⟨rfl, -⟩
      · exact h
      · exact absurd (List.mem_cons_of_mem v h.unmarked.1) (hlvr hw)
      · exact absurd List.mem_cons_self (hlvr hw)
    have hyr : ∀ w, w ∈ r.inorder → w.2.addr ≤ y ∧ y < w.2.stop → Spliced r w := by
      intro w hw hyw
      rcases hy w (by simp [hw]) hyw with h | h | ⟨rfl, -⟩
      · exact absurd (List.mem_cons_of_mem v hw) (hlvr h.unmarked.1)
      · exact h
      · exact absurd hw hvr
    have hp := ihl spare hordl hfree hyl
    have hpl : (cleanup l free spare).1 = .nil ↔ _ := cleanup_eq_nil spare
    simp only [cleanup, cleanupTop]
    generalize cleanup l free spare = p at *
    have hq := ihr p.2.2 hordr hp hyr
    have hqr : (cleanup r p.2.1 p.2.2).1 = .nil ↔ _ := cleanup_eq_nil p.2.2
    have hkept := cleanup_blocks r p.2.1 p.2.2
    generalize cleanup r p.2.1 p.2.2 = q at *
    split
    · exact hq
    rename_i hm
    have hroot : v.2.addr ≤ y ∧ y < v.2.stop → marked l ≠ [] ∧ marked r ≠ [] := by
      intro hyv
      rcases hy v (by simp) hyv with h | h | ⟨-, -, h⟩
      · exact absurd List.mem_cons_self (hlvr h.unmarked.1)
      · exact absurd h.unmarked.1 hvr
      · exact h
    have hinserted : ∀ t' x, NodeTree.removeRoot p.1 v q.1 = (t', some x) →
        y ∉ Set.Ico x.2.addr x.2.stop := by
      intro t' x hcut hyx
      rcases NodeTree.removeRoot_cases p.1 v q.1 with ⟨hnil, h⟩ | ⟨hnil, h⟩ | ⟨m, hin, -, h⟩
      · cases h.symm.trans hcut
        exact (hroot hyx).1 (hpl.mp hnil)
      · cases h.symm.trans hcut
        exact (hroot hyx).2 (hqr.mp hnil)
      · cases h.symm.trans hcut
        -- the successor is a kept node of the right subtree
        have hmem : x.2 ∈ q.1.blocks := List.mem_map_of_mem (by rw [hin]; exact List.mem_cons_self)
        rw [hkept] at hmem
        obtain ⟨w, hw, hwx⟩ := List.mem_map.mp hmem
        obtain ⟨hwr, hwm⟩ := List.mem_filter.mp hw
        rw [← hwx] at hyx
        have hsp := (hyr w hwr hyx).unmarked.2
        rw [hsp] at hwm
        cases hwm
    generalize NodeTree.removeRoot p.1 v q.1 = c at *
    obtain ⟨t', o⟩ := c
    cases o with
    | none => exact hq
    | some x =>
      intro hyx
      rcases coalesce_subset q.2.1 q.2.2 x hyx with h | h
      · exact hq h
      · exact hinserted t' x rfl h

/-- The block of a spliced node is lost. -/
theorem covers_iff (spare : List Nat) (hfree : FreeTree free) (hord : Ordered t.inorder)
    (hdisj : Disjoint (covered t.blocks) (covered free.blocks)) :
    covered (cleanup t free spare).2.1.blocks =
      covered free.blocks ∪ covered ((unmarked t).map Prod.snd) ↔ NoSplice t := by
  constructor
  · intro hcov
    rw [noSplice_iff]
    intro w hw
    obtain ⟨hmem, hflag⟩ := hw.unmarked
    have hpos := hord.2 w hmem
    have hin : w.2.addr ≤ w.2.addr ∧ w.2.addr < w.2.stop :=
      ⟨le_rfl, by simp only [Header.stop]; omega⟩
    have hyt : w.2.addr ∈ covered t.blocks := ⟨w.2, List.mem_map_of_mem hmem, hin⟩
    have hlost : w.2.addr ∉ covered (cleanup t free spare).2.1.blocks := by
      apply spliced_lost spare hord (Set.disjoint_left.mp hdisj hyt)
      intro v hv hyv
      rw [ordered_unique hord hv hmem hyv hin]
      exact hw
    apply hlost
    rw [hcov]
    refine Or.inr ⟨w.2, List.mem_map_of_mem (List.mem_filter.mpr ⟨hmem, ?_⟩), hin⟩
    simp [hflag]
  · intro hsplice
    exact (cleanup_cleaned spare hfree hord hsplice hdisj).covers

end Freed

def flagsOf (nodes : Nodes) (i : Nat) : Bool := (nodes i).block.isMarked

theorem freesOneSided_iff {nodes : Nodes} {p : Option Nat} {t : BlockTree} (h : Repr nodes p t) :
    FreesOneSided (flagsOf nodes) nodes p ↔ NoSplice t := by
  induction t generalizing p with
  | nil =>
    cases h
    exact ⟨fun _ => trivial, fun _ i hi => nomatch hi⟩
  | node l v r ihl ihr =>
    obtain ⟨rfl, hb, hl, hr⟩ := h
    -- a subtree without marked blocks is one without raised flags
    have hnone : ∀ {q : Option Nat} {u : BlockTree}, Repr nodes q u →
        ((∀ j, Below nodes q j → flagsOf nodes j = false) ↔ marked u = []) := by
      intro q u hu
      rw [marked, List.filter_eq_nil_iff]
      constructor
      · intro hoff w hw hm
        have hflag := hoff w.1 ((below_iff hu w.1).mpr (List.mem_map_of_mem hw))
        rw [flagsOf, hu.block_of_mem hw] at hflag
        rw [hflag] at hm
        cases hm
      · intro hoff j hj
        obtain ⟨w, hw, rfl⟩ := List.mem_map.mp ((below_iff hu j).mp hj)
        rw [flagsOf, hu.block_of_mem hw]
        exact Bool.eq_false_of_not_eq_true (hoff w hw)
    constructor
    · intro hone
      refine ⟨(ihl hl).mp fun i hi => hone i (.left hi), (ihr hr).mp fun i hi => hone i (.right hi),
        fun hm => ?_⟩
      rw [← hb] at hm
      exact (hone v.1 (.here _) hm).imp (hnone hl).mp (hnone hr).mp
    · rintro ⟨hsl, hsr, hroot⟩ i hi hflag
      cases hi with
      | here =>
        rw [flagsOf, hb] at hflag
        exact (hroot hflag).imp (hnone hl).mpr (hnone hr).mpr
      | left hi => exact (ihl hl).mpr hsl i hi hflag
      | right hi => exact (ihr hr).mpr hsr i hi hflag

/-- What a sweep is for: exactly the marked blocks stay occupied, their flags are cleared, and
the other blocks become free. -/
structure Swept (s' : LargeAllocator) (free occupied free' occupied' : BlockTree) : Prop where
  freeTree : Repr s'.nodes s'.freeRoot free'
  occupiedTree : Repr s'.nodes s'.occupiedRoot occupied'
  occupied_search : occupied'.SearchTree nodeAddr
  kept : occupied'.blocks = (marked occupied).map fun v => unmark v.2
  covers : covered free'.blocks = covered free.blocks ∪ covered ((unmarked occupied).map Prod.snd)
  no_touch : ∀ v, v ∈ free'.inorder → ∀ w, w ∈ free'.inorder → v.2.stop ≠ w.2.addr

section Main

variable {cfg : Config} {s : LargeAllocator} {free occupied : BlockTree} {spare : List Nat}
  {fuel : Nat}

theorem repr_unique {nodes : Nodes} {p : Option Nat} {t t' : BlockTree} (h : Repr nodes p t)
    (h' : Repr nodes p t') : t = t' := by
  induction t generalizing p t' with
  | nil =>
    cases h
    exact (h'.root_eq.mp rfl).symm
  | node l v r ihl ihr =>
    obtain ⟨rfl, hb, hl, hr⟩ := h
    cases t' with
    | nil => cases h'
    | node l' v' r' =>
      obtain ⟨hp, hb', hl', hr'⟩ := h'
      have hv : v.1 = v'.1 := Option.some.inj hp
      rw [← hv] at hb' hl' hr'
      rw [ihl hl hl', ihr hr hr', Prod.ext hv (hb.symm.trans hb')]

theorem spaced_no_touch {vs : List (Nat × Header)} (h : Spaced vs) {v w : Nat × Header}
    (hv : v ∈ vs) (hw : w ∈ vs) : v.2.stop ≠ w.2.addr := by
  have hpos := h.2 v hv
  have hgap : vs.Pairwise fun v w => v.2.stop ≠ w.2.addr ∧ w.2.stop ≠ v.2.addr := by
    refine h.1.imp_of_mem fun {a b} ha hb hlt => ?_
    have hposb := h.2 b hb
    simp only [Header.stop] at *
    omega
  have hsym : Std.Symm fun v w : Nat × Header => v.2.stop ≠ w.2.addr ∧ w.2.stop ≠ v.2.addr :=
    ⟨fun _ _ h => h.symm⟩
  by_cases hvw : v = w
  · subst hvw
    simp only [Header.stop]
    omega
  · exact (hgap.forall hv hw hvw).1

/-- `cleanup_bst` from the occupied root ends, with the result of `cleanup`. -/
theorem cleanupBst_ends (h : Holds s free occupied spare)
    (hf : occupied.size + (free.size + spare.length) + 1 < fuel) :
    ∃ s', cleanupBst fuel fuel s .occupiedRoot = some s' ∧
      Repr s'.nodes s'.freeRoot (cleanup occupied free spare).2.1 ∧
      Repr s'.nodes s'.occupiedRoot (cleanup occupied free spare).1 := by
  have hin : InSlot s .occupiedRoot (occupied, free, spare) :=
    ⟨h.occupiedTree, h.freeTree, h.spares⟩
  have hlen : (occupied.ids ++ (free.ids ++ spare)).length + 1 < fuel := by
    rw [List.length_append, List.length_append, length_ids, length_ids]
    exact hf
  obtain ⟨s', hrun, hin', -⟩ :=
    cleanupBst_repr hin h.nodup trivial hlen (by omega : occupied.size < fuel)
  exact ⟨s', hrun, hin'.free, hin'.tree⟩

theorem swept_iff (ht : Tiles cfg free occupied) (h : Holds s free occupied spare)
    {s' : LargeAllocator} (hfree' : Repr s'.nodes s'.freeRoot (cleanup occupied free spare).2.1)
    (hocc' : Repr s'.nodes s'.occupiedRoot (cleanup occupied free spare).1) :
    (∃ free' occupied', Swept s' free occupied free' occupied') ↔ NoSplice occupied := by
  have htiled := ht.tiled h.disjoint
  have hcov := covers_iff spare htiled.isFree htiled.ordered htiled.disjoint
  constructor
  · rintro ⟨free', occupied', hs⟩
    rw [repr_unique hs.freeTree hfree'] at hs
    exact hcov.mp hs.covers
  · intro hsplice
    have hclean := htiled.cleanup spare hsplice
    exact ⟨_, _, hfree', hocc', hclean.ordered.searchTree, cleanup_blocks _ _ _, hcov.mpr hsplice,
      fun v hv w hw => spaced_no_touch hclean.isFree.spaced hv hw⟩

/-- A sweep does what it is for exactly when it frees no node with marked nodes on both sides
below it. -/
theorem sweep_exact_iff (ht : Tiles cfg free occupied) (h : Holds s free occupied spare)
    (hf : occupied.size + (free.size + spare.length) + 1 < fuel) :
    ∃ s', cleanupBst fuel fuel s .occupiedRoot = some s' ∧
      ((∃ free' occupied', Swept s' free occupied free' occupied') ↔
        FreesOneSided (flagsOf s.nodes) s.nodes s.occupiedRoot) := by
  obtain ⟨s', hrun, hfree', hocc'⟩ := cleanupBst_ends h hf
  refine ⟨s', hrun, ?_⟩
  rw [freesOneSided_iff h.occupiedTree]
  exact swept_iff ht h hfree' hocc'

end Main

/-- Node 1 is the root of the occupied tree, nodes 0 and 2 are its children, node 3 is spare and
nothing is free. -/
def threeBlocks (a b c : Bool) : LargeAllocator where
  nodes := fun i =>
    match i with
    | 0 => ⟨⟨16384, 2016, a⟩, none, none⟩
    | 1 => ⟨⟨18400, 2016, b⟩, some 0, some 2⟩
    | 2 => ⟨⟨20416, 4160, c⟩, none, none⟩
    | _ => ⟨⟨0, 0, false⟩, none, none⟩
  treenodeListHead := some 3
  freeRoot := none
  occupiedRoot := some 1

def threeTree (a b c : Bool) : BlockTree :=
  .node (NodeTree.leaf (0, ⟨16384, 2016, a⟩)) (1, ⟨18400, 2016, b⟩)
    (NodeTree.leaf (2, ⟨20416, 4160, c⟩))

theorem threeBlocks_tiles (a b c : Bool) : Tiles twoBlocks .nil (threeTree a b c) := by
  constructor
  · exact List.Pairwise.nil
  · trivial
  · exact fun v hv => nomatch hv
  · simp [threeTree, NodeTree.SearchTree, nodeAddr]
  · intro v hv
    simp only [threeTree, NodeTree.inorder_nil, NodeTree.inorder_node, NodeTree.inorder_leaf,
      List.mem_append, List.mem_cons, List.not_mem_nil, or_false, false_or] at hv
    rcases hv with rfl | rfl | rfl <;> simp [Header.stop, twoBlocks, Config.largeEnd]
  · intro y hlo hhi
    simp only [twoBlocks, Config.largeEnd] at hlo hhi
    have hord : Ordered (threeTree a b c).inorder := by
      simp [threeTree, Ordered, Header.stop]
    obtain ⟨v, hv, hyv⟩ : ∃ v, v ∈ (threeTree a b c).inorder ∧ v.2.addr ≤ y ∧ y < v.2.stop := by
      simp only [threeTree, NodeTree.inorder_node, NodeTree.inorder_leaf, List.mem_append,
        List.mem_cons, List.not_mem_nil, or_false, or_and_right, exists_or, exists_eq_left,
        Header.stop]
      omega
    exact ⟨v, ⟨hv, hyv⟩, fun w hw => ordered_unique hord hw.1 hv hw.2 hyv⟩

theorem threeBlocks_holds (a b c : Bool) :
    Holds (threeBlocks a b c) .nil (threeTree a b c) [3] := by
  refine ⟨rfl, ⟨rfl, rfl, ⟨rfl, rfl, rfl, rfl⟩, ⟨rfl, rfl, rfl, rfl⟩⟩, ⟨⟨rfl, rfl⟩, ?_⟩, ?_⟩
  · intro i hi
    rw [List.mem_singleton] at hi
    subst hi
    rfl
  · simp [threeTree, BlockTree.ids]

theorem sweep_exact_iff_root_kept :
    ∃ s', cleanupBst 6 6 (threeBlocks false true true) .occupiedRoot = some s' ∧
      ∃ free' occupied', Swept s' .nil (threeTree false true true) free' occupied' := by
  obtain ⟨s', hrun, hiff⟩ := sweep_exact_iff (threeBlocks_tiles false true true)
    (threeBlocks_holds false true true) (show _ < 6 by decide)
  refine ⟨s', hrun, hiff.mpr ?_⟩
  rw [freesOneSided_iff (threeBlocks_holds false true true).occupiedTree]
  exact ⟨⟨trivial, trivial, fun _ => Or.inl rfl⟩, ⟨trivial, trivial, fun _ => Or.inl rfl⟩,
    fun h => nomatch h⟩

/-- The root is freed between two kept blocks: the block of node 2 becomes free although it is
occupied, and the block of the root is lost. -/
theorem successor_freed :
    ¬ ∀ (cfg : Config) (s : LargeAllocator) (free occupied : BlockTree) (spare : List Nat)
        (fuel : Nat), Tiles cfg free occupied → Holds s free occupied spare →
      occupied.size + (free.size + spare.length) + 1 < fuel →
      ∃ s', cleanupBst fuel fuel s .occupiedRoot = some s' ∧
        ∃ free' occupied', Swept s' free occupied free' occupied' := by
  intro h
  obtain ⟨s', hrun, hs⟩ := h twoBlocks (threeBlocks true false true) .nil
    (threeTree true false true) [3] 6 (threeBlocks_tiles true false true)
    (threeBlocks_holds true false true) (by decide)
  obtain ⟨s'', hrun', hfree', hocc'⟩ := cleanupBst_ends (threeBlocks_holds true false true)
    (show _ < 6 by decide)
  cases hrun.symm.trans hrun'
  have hsplice := (swept_iff (threeBlocks_tiles true false true)
    (threeBlocks_holds true false true) hfree' hocc').mp hs
  rcases hsplice.2.2 rfl with hnil | hnil <;> cases hnil

end GarbageCollector.LargeSweep
