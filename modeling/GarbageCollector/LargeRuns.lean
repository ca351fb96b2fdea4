import GarbageCollector.CollectorInvariant
import GarbageCollector.LargeSweep

/-!
# The large heap in the runs of the collector

The two trees behind the large allocator over whole runs of `gc_malloc`. They are trees as long as
no attempt takes a free node with children, and their blocks tile the large heap as long as no
sweep frees a node between kept ones; `tiles` says whether a result is about the latter runs.
-/

namespace GarbageCollector

open BinaryTree LargeTiling LargeSweep

/-- The two trees and the spare nodes of a run. -/
structure Trees (cfg : Config) (tiles : Prop) (large : LargeAllocator) (free occupied : BlockTree)
    (spare : List Nat) : Prop where
  shape : Shape cfg large free occupied spare
  clear : Clear free
  tiled : tiles → Tiled cfg free occupied

/-- A block of the occupied tree. -/
def Occupies (large : LargeAllocator) (a n : Nat) : Prop :=
  ∃ i, Below large.nodes large.occupiedRoot i ∧ (large.nodes i).block.addr = a ∧
    (large.nodes i).block.size = n

section Trees

variable {cfg : Config} {tiles : Prop} {large large' : LargeAllocator} {free occupied t : BlockTree}
  {spare : List Nat} {nodes nodes' : Nodes} {p r : Option Nat} {a a' m m' n fuel : Nat}
  {h h' : Heap}

theorem occupies_iff (ht : Repr large.nodes large.occupiedRoot t) :
    Occupies large a n ↔ ∃ b, b ∈ t.blocks ∧ b.addr = a ∧ b.size = n := by
  constructor
  · rintro ⟨i, hi, haddr, hsize⟩
    obtain ⟨v, hv, rfl⟩ := List.mem_map.mp ((below_iff ht i).mp hi)
    rw [ht.block_of_mem hv] at haddr hsize
    exact ⟨v.2, List.mem_map_of_mem hv, haddr, hsize⟩
  · rintro ⟨b, hb, haddr, hsize⟩
    obtain ⟨v, hv, rfl⟩ := List.mem_map.mp hb
    rw [← ht.block_of_mem hv] at haddr hsize
    exact ⟨v.1, (below_iff ht v.1).mpr (List.mem_map_of_mem hv), haddr, hsize⟩

/-- Blocks of the occupied tree with different addresses share no byte. -/
theorem Trees.apart (ht : Trees cfg True large free occupied spare) (ha : Occupies large a n)
    (ha' : Occupies large a' m) (hne : a ≠ a') : a + n ≤ a' ∨ a' + m ≤ a := by
  obtain ⟨b, hb, rfl, rfl⟩ := (occupies_iff ht.shape.occupiedTree).mp ha
  obtain ⟨c, hc, rfl, rfl⟩ := (occupies_iff ht.shape.occupiedTree).mp ha'
  obtain ⟨v, hv, rfl⟩ := List.mem_map.mp hb
  obtain ⟨w, hw, rfl⟩ := List.mem_map.mp hc
  have hpair : occupied.inorder.Pairwise fun v w => v.2.Apart w.2 :=
    (ht.tiled trivial).ordered.1.imp Or.inl
  have hvw : v ≠ w := by
    rintro rfl
    exact hne rfl
  exact hpair.forall hv hw hvw

/-- Blocks with one address are one block. -/
theorem Trees.size_unique (ht : Trees cfg True large free occupied spare)
    (ha : Occupies large a n) (ha' : Occupies large a m) : n = m := by
  obtain ⟨b, hb, rfl, rfl⟩ := (occupies_iff ht.shape.occupiedTree).mp ha
  obtain ⟨c, hc, haddr, rfl⟩ := (occupies_iff ht.shape.occupiedTree).mp ha'
  obtain ⟨v, hv, rfl⟩ := List.mem_map.mp hb
  obtain ⟨w, hw, rfl⟩ := List.mem_map.mp hc
  have hord := (ht.tiled trivial).ordered
  have hposv := hord.2 v hv
  have hposw := hord.2 w hw
  have hvw : v = w := by
    apply ordered_unique hord hv hw (y := v.2.addr) <;> simp only [Header.stop] <;> omega
  rw [hvw]

theorem init_trees (cfg : Config) (tiles : Prop) :
    ∃ free occupied spare, Trees cfg tiles (initLargeAllocator cfg) free occupied spare ∧
      Clear occupied := by
  refine ⟨_, _, _, ⟨init_shape cfg, ?_, fun _ => init_tiled cfg⟩, fun _ hv => nomatch hv⟩
  intro v hv
  rw [NodeTree.inorder_leaf, List.mem_singleton] at hv
  rw [hv]

theorem clear_insert {x : Nat × Header} (ht : Clear t) (hx : x.2.isMarked = false) :
    Clear (t.insert nodeAddr x) := by
  intro v hv
  rw [(NodeTree.inorder_insert_perm nodeAddr x t).mem_iff] at hv
  rcases List.mem_cons.mp hv with rfl | hv
  · exact hx
  · exact ht v hv

theorem mem_blocks_insert {x : Nat × Header} {b : Header} :
    b ∈ BlockTree.blocks (t.insert nodeAddr x) ↔ b = x.2 ∨ b ∈ t.blocks := by
  rw [BlockTree.blocks, ((NodeTree.inorder_insert_perm nodeAddr x t).map Prod.snd).mem_iff,
    List.map_cons, List.mem_cons]
  rfl

/-- The address of the free block is that of no occupied one. -/
theorem LargeTiling.Tiled.addr_ne {i : Nat} {b : Header}
    (ht : Tiled cfg (NodeTree.leaf (i, b)) occupied)
    {c : Header} (hc : c ∈ occupied.blocks) : c.addr ≠ b.addr := by
  intro he
  obtain ⟨v, hv, rfl⟩ := List.mem_map.mp hc
  have hpos := ht.ordered.2 v hv
  have hpos' : 0 < b.size := ht.isFree.spaced.2 (i, b) (by simp)
  have hd := ht.disjoint
  rw [covered_leaf] at hd
  have hfirst : v.2.addr ∈ covered occupied.blocks :=
    ⟨v.2, hc, le_rfl, by simp only [Header.stop]; omega⟩
  apply Set.disjoint_left.mp hd hfirst
  constructor
  · exact he.ge
  · simp only [Header.stop]
    omega

/-- What an attempt does with the trees, and with the blocks of the occupied one. -/
structure Extended (cfg : Config) (tiles : Prop) (large large' : LargeAllocator) (n : Nat)
    (r : Option Nat) : Prop where
  trees : ∃ free occupied spare, Trees cfg tiles large' free occupied spare ∧ Clear occupied
  kept : ∀ a m, Occupies large a m → Occupies large' a m
  taken : ∀ x, r = some x → Occupies large' x n
  new : tiles → ∀ x, r = some x → ∀ m, ¬ Occupies large x m

theorem Allocated.extended (ht : Trees cfg tiles large free occupied spare)
    (hclear : Clear occupied) (hn : 0 < n)
    (ha : Allocated cfg large' n free occupied spare r) : Extended cfg tiles large large' n r := by
  have hold : ∀ {x : Nat × Header} {free' : BlockTree} {spare' : List Nat},
      Shape cfg large' free' (occupied.insert nodeAddr x) spare' →
      ∀ a m, Occupies large a m → Occupies large' a m := by
    intro x free' spare' hs a m hocc
    obtain ⟨b, hb, hab⟩ := (occupies_iff ht.shape.occupiedTree).mp hocc
    exact (occupies_iff hs.occupiedTree).mpr ⟨b, mem_blocks_insert.mpr (Or.inr hb), hab⟩
  have hnew : ∀ {i : Nat} {b : Header}, free = NodeTree.leaf (i, b) → tiles →
      ∀ m, ¬ Occupies large b.addr m := by
    rintro i b rfl htiles m hocc
    obtain ⟨c, hc, haddr, -⟩ := (occupies_iff ht.shape.occupiedTree).mp hocc
    exact (ht.tiled htiles).addr_ne hc haddr
  have hunmarked : ∀ (i : Nat) (b : Header), free = NodeTree.leaf (i, b) →
      b.isMarked = false := by
    rintro i b rfl
    exact ht.clear (i, b) (by simp)
  cases ha with
  | failed hs =>
    refine ⟨⟨_, _, _, ⟨hs, ht.clear, ht.tiled⟩, hclear⟩, fun a m hocc => ?_, nofun, nofun⟩
    exact (occupies_iff hs.occupiedTree).mpr ((occupies_iff ht.shape.occupiedTree).mp hocc)
  | whole i b hfree hsize hs =>
    refine ⟨⟨_, _, _, ⟨hs, nofun, fun htiles => ?_⟩, clear_insert hclear (hunmarked i b hfree)⟩,
      hold hs, ?_, ?_⟩
    · exact (hfree ▸ ht.tiled htiles).whole
    · rintro x ⟨⟩
      exact (occupies_iff hs.occupiedTree).mpr ⟨b, mem_blocks_insert.mpr (Or.inl rfl), rfl, hsize⟩
    · rintro htiles x ⟨⟩
      exact hnew hfree htiles
  | part i j b rest hfree hspare hsize hs =>
    refine ⟨⟨_, _, _, ⟨hs, fun v hv => ?_, fun htiles => ?_⟩,
      clear_insert hclear (hunmarked i b hfree)⟩, hold hs, ?_, ?_⟩
    · rw [NodeTree.inorder_leaf, List.mem_singleton] at hv
      rw [hv]
    · exact (hfree ▸ ht.tiled htiles).part hn hsize
    · rintro x ⟨⟩
      exact (occupies_iff hs.occupiedTree).mpr ⟨_, mem_blocks_insert.mpr (Or.inl rfl), rfl, rfl⟩
    · rintro htiles x ⟨⟩
      exact hnew hfree htiles

theorem SameButFlags.repr (hs : SameButFlags nodes nodes') (ht : Repr nodes p t) :
    Repr nodes' p (t.map (flagged (flagsOf nodes'))) := by
  induction t generalizing p with
  | nil => exact ht
  | node l v r ihl ihr =>
    obtain ⟨rfl, hb, hl, hr⟩ := ht
    obtain ⟨haddr, hsize, hleft, hright⟩ := hs v.1
    refine ⟨rfl, ?_, ?_, ?_⟩
    · rw [hb] at haddr hsize
      simp only [flagged, flagsOf, ← haddr, ← hsize]
    · exact hleft ▸ ihl hl
    · exact hright ▸ ihr hr

/-- Marking changes the flags of the occupied nodes only. -/
theorem Trees.mark (ht : Trees cfg tiles h.large free occupied spare) (hm : MarkFrame cfg h h') :
    Trees cfg tiles h'.large free (occupied.map (flagged (flagsOf h'.large.nodes))) spare := by
  have hsame : SameOff h.large.nodes h'.large.nodes occupied.ids := fun i hi =>
    hm.others i fun hb => hi ((below_iff ht.shape.occupiedTree i).mp hb)
  have hdisj := List.disjoint_append_right.mp (List.nodup_append'.mp ht.shape.nodup).2.2
  refine ⟨⟨?_, ?_, ?_, ?_⟩, ht.clear, fun htiles => ?_⟩
  · rw [hm.same.freeRoot]
    exact ht.shape.freeTree.frame hsame (List.disjoint_symm hdisj.1)
  · rw [hm.same.occupiedRoot]
    exact hm.same.nodes.repr ht.shape.occupiedTree
  · rw [hm.same.treenodeListHead]
    exact ht.shape.spares.frame hsame (List.disjoint_symm hdisj.2)
  · rw [ids_flagged]
    exact ht.shape.ids
  · exact (ht.tiled htiles).reflag _ (fun _ => rfl) fun _ => rfl

theorem MarkFrame.occupies (hm : MarkFrame cfg h h') (ha : Occupies h.large a n) :
    Occupies h'.large a n := by
  obtain ⟨i, hi, haddr, hsize⟩ := ha
  refine ⟨i, ?_, (hm.same.nodes i).1.trans haddr, (hm.same.nodes i).2.1.trans hsize⟩
  have hback : SameButFlags h'.large.nodes h.large.nodes := fun j =>
    ⟨(hm.same.nodes j).1.symm, (hm.same.nodes j).2.1.symm, (hm.same.nodes j).2.2.1.symm,
      (hm.same.nodes j).2.2.2.symm⟩
  rw [hm.same.occupiedRoot]
  exact hback.below hi

/-- What a sweep does with the trees, and with the marked blocks. -/
structure Recovered (cfg : Config) (tiles : Prop) (large large' : LargeAllocator) : Prop where
  trees : ∃ free occupied spare, Trees cfg tiles large' free occupied spare ∧ Clear occupied
  kept : ∀ i, Below large.nodes large.occupiedRoot i → flagsOf large.nodes i = true →
    Occupies large' (large.nodes i).block.addr (large.nodes i).block.size

theorem Trees.sweep (ht : Trees cfg tiles large free occupied spare)
    (hone : tiles → FreesOneSided (flagsOf large.nodes) large.nodes large.occupiedRoot)
    (hf : cfg.treenodeCount + 1 < fuel) (hrun : sweepLargeHeap fuel large = some large') :
    Recovered cfg tiles large large' := by
  obtain ⟨s', hs', hshape⟩ := sweepLargeHeap_repr ht.shape hf
  obtain rfl : s' = large' := Option.some.inj (hs'.symm.trans hrun)
  obtain ⟨hocc, hfree⟩ := cleanup_clear occupied spare ht.clear
  refine ⟨⟨_, _, _, ⟨hshape, hfree, fun htiles => ?_⟩, hocc⟩, fun i hi hflag => ?_⟩
  · apply (ht.tiled htiles).cleanup spare
    exact (freesOneSided_iff ht.shape.occupiedTree).mp (hone htiles)
  · obtain ⟨v, hv, rfl⟩ := List.mem_map.mp ((below_iff ht.shape.occupiedTree i).mp hi)
    have hblock := ht.shape.occupiedTree.block_of_mem hv
    rw [flagsOf, hblock] at hflag
    rw [hblock]
    refine (occupies_iff hshape.occupiedTree).mpr ⟨unmark v.2, ?_, rfl, rfl⟩
    rw [cleanup_blocks]
    exact List.mem_map.mpr ⟨v, List.mem_filter.mpr ⟨hv, hflag⟩, rfl⟩

end Trees

namespace Collector

/-- An attempt for a large size takes a free node without children. -/
def TakesChildless (s : State) : Action → Prop
  | .malloc n _ =>
    maxObjectSize < n → FitsChildless s.gc.heap.large (getSizeWithAlignment n)
  | .retry _ =>
    match s.phase with
    | .swept n => maxObjectSize < n → FitsChildless s.gc.heap.large (getSizeWithAlignment n)
    | _ => True
  | _ => True

/-- A sweep frees no node with kept nodes on both sides below it. -/
def SweepsOneSided (s : State) : Action → Prop
  | .sweep _ => FreesOneSided (flagsOf s.gc.heap.large.nodes) s.gc.heap.large.nodes
      s.gc.heap.large.occupiedRoot
  | _ => True

instance (s : State) (a : Action) : Decidable (TakesChildless s a) :=
  match s, a with
  | _, .malloc _ _ => inferInstanceAs (Decidable (_ → FitsChildless _ _))
  | ⟨_, .swept _, _, _⟩, .retry _ => inferInstanceAs (Decidable (_ → FitsChildless _ _))
  | ⟨_, .mutator, _, _⟩, .retry _ | ⟨_, .failed _, _, _⟩, .retry _ | ⟨_, .marked _, _, _⟩, .retry _
  | _, .mark _ | _, .sweep _ | _, .store _ _ => isTrue trivial

/-- There are trees behind the pointers, and no flag is set outside a collection. -/
def LargeInv (cfg : Config) (tiles : Prop) (s : State) : Prop :=
  ∃ free occupied spare, Trees cfg tiles s.gc.heap.large free occupied spare ∧
    ((∀ n, s.phase ≠ .marked n) → Clear occupied)

section Runs

variable {cfg : Config} {tiles : Prop} {roots : Roots cfg} {ok : State → Action → Prop}
  {s s' : State} {a : Action} {g g' : Gc} {n fuel : Nat} {res : Option Nat}

theorem allocate_extended {free occupied : BlockTree} {spare : List Nat}
    (ht : Trees cfg tiles g.heap.large free occupied spare) (hclear : Clear occupied)
    (hfuel : depth cfg < fuel)
    (hfit : maxObjectSize < n → FitsChildless g.heap.large (getSizeWithAlignment n))
    (hrun : allocateNewObject cfg fuel g n = some (g', res)) :
    (n ≤ maxObjectSize → g'.heap.large = g.heap.large) ∧
      (maxObjectSize < n → Extended cfg tiles g.heap.large g'.heap.large
        (getSizeWithAlignment n) res) := by
  rw [allocateNewObject] at hrun
  split at hrun
  · rename_i hn
    obtain ⟨⟨small, cache, r⟩, -, he⟩ := Option.map_eq_some_iff.mp hrun
    cases he
    exact ⟨fun _ => rfl, fun hlt => by omega⟩
  · split at hrun
    · rename_i hn
      obtain ⟨⟨large, r⟩, hlarge, he⟩ := Option.map_eq_some_iff.mp hrun
      cases he
      refine ⟨fun hle => by omega, fun hlt => ?_⟩
      have hf : cfg.treenodeCount + 1 < fuel := by
        simp only [depth] at hfuel
        omega
      obtain ⟨large', r', hrun', hall⟩ := allocateLargeObject_repr ht.shape n (hfit hlt) hf
      cases hlarge.symm.trans hrun'
      apply hall.extended ht hclear
      have hle := le_getSizeWithAlignment n
      omega
    · cases hrun
      exact ⟨fun _ => rfl, fun hlt =>
        ⟨⟨_, _, _, ht, hclear⟩, fun _ _ hocc => hocc, by simp, by simp⟩⟩

theorem attempted_largeInv {phase : Phase} {p : Gc × Option Nat} (h : LargeInv cfg tiles s)
    (hphase : ∀ m, s.phase ≠ .marked m) (hfuel : depth cfg < fuel)
    (hfit : maxObjectSize < n → FitsChildless s.gc.heap.large (getSizeWithAlignment n))
    (hrun : allocateNewObject cfg fuel s.gc n = some p) :
    LargeInv cfg tiles (s.attempted n phase p) := by
  obtain ⟨free, occupied, spare, ht, hclear⟩ := h
  obtain ⟨hsmall, hlarge⟩ := allocate_extended ht (hclear hphase) hfuel hfit hrun
  rw [LargeInv, attempted_gc]
  rcases Nat.lt_or_ge maxObjectSize n with hlt | hle
  · obtain ⟨free', occupied', spare', ht', hclear'⟩ := (hlarge hlt).trees
    exact ⟨free', occupied', spare', ht', fun _ => hclear'⟩
  · rw [hsmall hle]
    exact ⟨free, occupied, spare, ht, fun _ => hclear hphase⟩

theorem outcome_largeInv (hi : Inv cfg s) (h : LargeInv cfg tiles s) (hfit : TakesChildless s a)
    (hone : tiles → SweepsOneSided s a) (hs : Outcome cfg roots s a s') :
    LargeInv cfg tiles s' := by
  cases hs with
  | refused => exact h
  | malloc hphase _ hfuel hrun =>
    exact attempted_largeInv h (by simp [hphase]) hfuel hfit hrun
  | @mark n fuel g hphase _ hrun =>
    obtain ⟨free, occupied, spare, ht, -⟩ := h
    have hframe := (stopAndMark_marked (hi.between (by simp [hphase])) hrun).2
    exact ⟨_, _, _, ht.mark hframe, fun hp => absurd rfl (hp n)⟩
  | @sweep n fuel g hphase hfuel hrun =>
    obtain ⟨free, occupied, spare, ht, -⟩ := h
    obtain ⟨large, hlarge, rfl⟩ := Option.map_eq_some_iff.mp hrun
    have hf : cfg.treenodeCount + 1 < fuel := by
      simp only [depth] at hfuel
      omega
    obtain ⟨free', occupied', spare', ht', hclear'⟩ := (ht.sweep hone hf hlarge).trees
    exact ⟨free', occupied', spare', ht', fun _ => hclear'⟩
  | @retry n fuel p hphase hfuel hrun =>
    simp only [TakesChildless, hphase] at hfit
    exact attempted_largeInv h (by simp [hphase]) hfuel hfit hrun
  | store => exact h

theorem reachable_largeInv (h : Reachable cfg roots ok s)
    (hfit : ∀ s a, ok s a → TakesChildless s a)
    (hone : tiles → ∀ s a, ok s a → SweepsOneSided s a) : LargeInv cfg tiles s := by
  apply h.invariant_of (I := Inv cfg) (P := LargeInv cfg tiles)
  · exact fun s hr => reachable_inv hr
  · rintro s ⟨m, -, rfl⟩
    obtain ⟨free, occupied, spare, ht, hclear⟩ := init_trees cfg tiles
    exact ⟨free, occupied, spare, ht, fun _ => hclear⟩
  · intro s a s' hi hl hok hs
    exact outcome_largeInv hi hl (hfit s a hok) (fun htiles => hone htiles s a hok)
      (step_outcome hs)

end Runs

end Collector

end GarbageCollector
