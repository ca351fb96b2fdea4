import GarbageCollector.KeptSlots
import GarbageCollector.LargeRuns
import GarbageCollector.RootMarks

/-!
# Objects of both heaps over whole runs

An object that the program holds is a whole slot of a small block or a block of the occupied tree.
An attempt leaves all of them in place and returns a range that overlaps none of those it must not
return; `mark` moves none, and a sweep keeps the marked ones.
-/

namespace GarbageCollector

open BinaryTree LinkedList FailedAllocation LargeTiling LargeSweep Collector
open ConcurrentAlloc (Apart)
open ResolvedRange (BehindSlots OccupiedTree getObjectSize_slot slot_lt_of_not_behind)

/-- The object at an address for the size asked for. -/
def Placed (cfg : Config) (h : Heap) (x : Nat × Nat) : Prop :=
  Sited cfg h.mem x ∨
    cfg.InLarge x.1 ∧ Occupies h.large x.1 (getSizeWithAlignment x.2)

/-- The room of an object: a whole slot for its block's size, or an occupied block. -/
def Lies (cfg : Config) (h : Heap) (o m : Nat) : Prop :=
  (∃ p, Sited cfg h.mem (o, p) ∧ getSizeWithAlignment p = m) ∨
    cfg.InLarge o ∧ Occupies h.large o m

/-- No call returns one of the small objects before the next collection. -/
def AllProtected (cfg : Config) (g : Gc) (xs : List (Nat × Nat)) : Prop :=
  ∃ place, Solo cfg g.heap.small ⟨.idle, g.nodesCache⟩ place ∧
    ∀ x, x ∈ xs → cfg.InSmall x.1 → Protected cfg g.heap.small ⟨.idle, g.nodesCache⟩ place x

section Places

variable {cfg : Config} {h h' : Heap} {x y : Nat × Nat} {xs : List (Nat × Nat)}
  {free occupied : BlockTree} {spare : List Nat} {a o o' m m' fuel : Nat}

theorem Sited.inside (hx : Sited cfg h.mem x) :
    cfg.smallStart ≤ x.1 ∧ x.1 + getSizeWithAlignment x.2 ≤ cfg.smallEnd := by
  obtain ⟨b, k, hb, hn, hk, -, haddr⟩ := hx
  have hend := (cfg.lt_slotCount_iff (i := b) hn.1).mp hk
  have hblock := cfg.blockAddr_end_le hb
  rw [cfg.slotAddr_succ, ← haddr] at hend
  constructor
  · have hlow := cfg.slotAddr_mono (i := b) (n := x.2) (Nat.zero_le k)
    rw [cfg.slotAddr_zero, ← haddr] at hlow
    simp only [Config.blockAddr] at hlow
    omega
  · omega

theorem Occupies.inside {a n : Nat} (hin : NodesInside cfg h.large.nodes) (ha : cfg.InLarge a)
    (hocc : Occupies h.large a n) : cfg.largeStart ≤ a ∧ a + n ≤ cfg.largeEnd := by
  obtain ⟨i, -, rfl, rfl⟩ := hocc
  rcases hin i with hzero | hinside
  · rw [hzero]
    exact ⟨ha.1, ha.2.le⟩
  · exact hinside

/-- Objects in different heaps. -/
theorem apart_of_heaps {a n : Nat} (hx : Sited cfg h.mem x) (hlo : cfg.largeStart ≤ a)
    (hhi : a + n ≤ cfg.largeEnd) : x.1 + getSizeWithAlignment x.2 ≤ a ∨ a + n ≤ x.1 := by
  have hsmall := hx.inside
  have hd := cfg.heaps_disjoint
  simp only [Config.smallEnd, Config.largeEnd] at *
  omega

theorem Placed.lies (hx : Placed cfg h x) : Lies cfg h x.1 (getSizeWithAlignment x.2) := by
  rcases hx with hx | hx
  · exact Or.inl ⟨x.2, hx, rfl⟩
  · exact Or.inr hx

theorem Lies.apart (ht : Trees cfg True h.large free occupied spare)
    (hin : NodesInside cfg h.large.nodes) (ho : Lies cfg h o m) (ho' : Lies cfg h o' m')
    (hne : o ≠ o') : o + m ≤ o' ∨ o' + m' ≤ o := by
  rcases ho with ⟨p, ho, rfl⟩ | ⟨ho, hocc⟩
  · rcases ho' with ⟨p', ho', rfl⟩ | ⟨ho', hocc'⟩
    · exact ho.apart ho' hne
    · obtain ⟨hlo, hhi⟩ := hocc'.inside hin ho'
      exact apart_of_heaps ho hlo hhi
  · obtain ⟨hlo, hhi⟩ := hocc.inside hin ho
    rcases ho' with ⟨p', ho', rfl⟩ | ⟨-, hocc'⟩
    · exact (apart_of_heaps ho' hlo hhi).symm
    · exact ht.apart hocc hocc' hne

/-- Objects with different addresses overlap nowhere. -/
theorem Placed.apart (ht : Trees cfg True h.large free occupied spare)
    (hin : NodesInside cfg h.large.nodes) (hx : Placed cfg h x) (hy : Placed cfg h y)
    (hne : x.1 ≠ y.1) : Apart x y :=
  Lies.apart ht hin hx.lies hy.lies hne

theorem Placed.isStart (hx : Placed cfg h x) : IsStart cfg h x.1 := by
  rcases hx with hx | ⟨hx, -⟩
  · obtain ⟨b, k, hs, -⟩ := hx.slotStart
    exact Or.inr ⟨b, k, hs⟩
  · exact Or.inl hx

theorem Lies.mark (ho : Lies cfg h o m) (hm : MarkFrame cfg h h') : Lies cfg h' o m := by
  rcases ho with ⟨p, ho, hp⟩ | ⟨ho, hocc⟩
  · exact Or.inl ⟨p, ho.congr fun b _ hsize => (hm.same.headerSize b).trans hsize, hp⟩
  · exact Or.inr ⟨ho, hm.occupies hocc⟩

/-- Marking moves no object. -/
theorem Placed.mark (hx : Placed cfg h x) (hm : MarkFrame cfg h h') : Placed cfg h' x := by
  rcases hx with hx | ⟨hx, hocc⟩
  · exact Or.inl (hx.congr fun b _ hsize => (hm.same.headerSize b).trans hsize)
  · exact Or.inr ⟨hx, hm.occupies hocc⟩

theorem Placed.store {m' : Bytes.Mem} (hx : Placed cfg h x) (same : SameHeaders cfg h.mem m') :
    Placed cfg (h.setMem m') x := by
  rcases hx with hx | hx
  · exact Or.inl (hx.congr fun b hb hsize => (same.headerSize hb).trans hsize)
  · exact Or.inr hx

theorem Lies.store {m' : Bytes.Mem} (ho : Lies cfg h o m) (same : SameHeaders cfg h.mem m') :
    Lies cfg (h.setMem m') o m := by
  rcases ho with ⟨p, ho, hp⟩ | ho
  · exact Or.inl ⟨p, ho.congr fun b hb hsize => (same.headerSize hb).trans hsize, hp⟩
  · exact Or.inr ho

theorem Trees.occupiedTree (ht : Trees cfg True h.large free occupied spare) :
    OccupiedTree cfg h occupied := by
  have htiled := ht.tiled trivial
  exact ⟨ht.shape.occupiedTree, htiled.ordered.searchTree, fun v hv =>
    (htiled.inside (List.mem_append_right _ hv)).2⟩

theorem Occupies.exists_block (ht : Trees cfg True h.large free occupied spare)
    (hocc : Occupies h.large o m) :
    ∃ v, v ∈ occupied.inorder ∧ (h.large.nodes v.1).block = v.2 ∧ v.2.addr = o ∧ v.2.size = m := by
  obtain ⟨i, hi, haddr, hsize⟩ := hocc
  obtain ⟨v, hv, rfl, hblock⟩ := ht.occupiedTree.exists_block hi
  rw [hblock] at haddr hsize
  exact ⟨v, hv, hblock, haddr, hsize⟩

theorem Lies.getObjectSize (ht : Trees cfg True h.large free occupied spare)
    (hf : occupied.size < fuel) (ho : Lies cfg h o m) :
    getObjectSize cfg fuel h o = some m := by
  rcases ho with ⟨p, ho, rfl⟩ | ⟨ho, hocc⟩
  · obtain ⟨b, k, hs, -, hsize⟩ := ho.slotStart
    rw [getObjectSize_slot hs, hsize]
  · obtain ⟨v, hv, hblock, rfl, rfl⟩ := hocc.exists_block ht
    have hout : ¬ cfg.InSmall v.2.addr := fun hs => cfg.not_inLarge_of_inSmall hs ho
    have hsearch := ht.occupiedTree.searchBst hf hv
    simp only [GarbageCollector.getObjectSize, if_neg hout, if_pos ho, hsearch, Option.bind_some,
      hblock]

/-- An object is resolved to itself. -/
theorem Lies.getObject (ht : Trees cfg True h.large free occupied spare)
    (hf : occupied.size < fuel) (ho : Lies cfg h o m) :
    getObject cfg fuel h o = some (some o) := by
  rcases ho with ⟨p, ho, -⟩ | ⟨ho, hocc⟩
  · obtain ⟨b, k, hs, -⟩ := ho.slotStart
    exact hs.getObject
  · obtain ⟨v, hv, hblock, rfl, -⟩ := hocc.exists_block ht
    have hord := (ht.tiled trivial).ordered
    have hpos := hord.2 v hv
    have hself := extSearchBst_of_mem ht.shape.occupiedTree hf hord.1 hv le_rfl
      (by simp only [Header.stop]; omega)
    simp only [GarbageCollector.getObject, if_pos ho, hself, Option.map_some, hblock]

/-- An address that is resolved lies in an object, if it is not behind the last whole slot. -/
theorem lies_of_getObject (ht : Trees cfg True h.large free occupied spare)
    (hnot : ¬ BehindSlots cfg h a) (hg : GarbageCollector.getObject cfg fuel h a = some (some o)) :
    ∃ m, Lies cfg h o m := by
  by_cases hl : cfg.InLarge a
  · simp only [GarbageCollector.getObject, if_pos hl, Option.map_eq_some_iff] at hg
    obtain ⟨found, hfound, ho⟩ := hg
    cases found with
    | none => cases ho
    | some i =>
      cases ho
      obtain ⟨hbelow, hlo, hhi⟩ := extSearchBst_below hfound
      obtain ⟨v, hv, -, hblock⟩ := ht.occupiedTree.exists_block hbelow
      obtain ⟨hstart, hend⟩ := ht.occupiedTree.inside v hv
      rw [hblock] at hlo hhi
      refine ⟨_, Or.inr ⟨⟨?_, ?_⟩, i, hbelow, rfl, rfl⟩⟩ <;> rw [hblock]
      · exact hstart
      · omega
  · by_cases hs : cfg.InSmall a
    · obtain ⟨b, k, hslot, hoa, -, hab⟩ := getObject_slot hs hg
      have hk := slot_lt_of_not_behind hnot hslot hoa hab
      exact ⟨_, Or.inl ⟨_, ⟨b, k, hslot.block, hslot.size, hk, rfl, hslot.addr⟩, rfl⟩⟩
    · simp only [GarbageCollector.getObject, if_neg hl, if_neg hs] at hg
      cases hg

end Places

section Attempts

variable {cfg : Config} {fuel n r : Nat} {g g' : Gc} {res : Option Nat} {x : Nat × Nat}
  {xs : List (Nat × Nat)} {free occupied : BlockTree} {spare : List Nat}

/-- A call of the small allocator leaves the slots where they are, also when it fails. -/
theorem call_sited {s s' : SmallHeap} {cache cache' : NodesCache} {place : Nat → Place (Fin 1)}
    (h : Solo cfg s ⟨.idle, cache⟩ place) (hn : InRange n) (hx : Sited cfg s.mem x)
    (hrun : allocateSmallObject cfg fuel s cache n = some (s', cache', res)) :
    Sited cfg s'.mem x := by
  obtain ⟨place', ha, -⟩ := attempt_run (Q := fun _ _ _ => True) h hn trivial
    (fun _ _ _ _ _ _ _ _ => trivial) hrun
  obtain ⟨b, k, hb, hp, hk, hsize, haddr⟩ := hx
  have huse : (place b).inUse := by
    by_contra hnot
    have hzero := h.unused b hb hnot
    have hpos := hp.1
    omega
  exact ⟨b, k, hb, hp, hk, (ha.used b huse).2.trans hsize, haddr⟩

/-- An attempt that succeeds, or that fails without zeroing a bitmap with a marked slot. -/
theorem allocate_protected (hsafe : AllProtected cfg g xs)
    (hin : NodesInside cfg g.heap.large.nodes)
    (hother : res = none → n ≤ maxObjectSize → NoOther cfg g.heap.mem n)
    (hrun : allocateNewObject cfg fuel g n = some (g', res)) :
    AllProtected cfg g' xs ∧ ∀ r, res = some r → AllProtected cfg g' ((r, n) :: xs) := by
  obtain ⟨place, hsolo, hxs⟩ := hsafe
  rw [allocateNewObject] at hrun
  split at hrun
  · rename_i hn
    obtain ⟨⟨small, cache, r⟩, hsmall, he⟩ := Option.map_eq_some_iff.mp hrun
    cases he
    have hsmalls : ∀ x, x ∈ xs.filter (fun x => decide (cfg.InSmall x.1)) →
        Protected cfg g.heap.small ⟨.idle, g.nodesCache⟩ place x := fun x hx =>
      hxs x (List.mem_of_mem_filter hx) (by simpa using (List.mem_filter.mp hx).2)
    obtain ⟨place', hsolo', hkept, hnew⟩ := call_protects hsolo hn hsmalls
      (fun hr => hother hr hn.2) hsmall
    have hold : ∀ x, x ∈ xs → cfg.InSmall x.1 →
        Protected cfg small ⟨.idle, cache⟩ place' x := fun x hx hin =>
      hkept x (List.mem_filter.mpr ⟨hx, by simpa using hin⟩)
    refine ⟨⟨place', hsolo', hold⟩, fun r hr => ⟨place', hsolo', fun x hx hin => ?_⟩⟩
    rcases List.mem_cons.mp hx with rfl | hx
    · exact (hnew r hr).1
    · exact hold x hx hin
  · split at hrun
    · rename_i hn
      obtain ⟨⟨large, r⟩, hlarge, he⟩ := Option.map_eq_some_iff.mp hrun
      cases he
      refine ⟨⟨place, hsolo, hxs⟩, fun r hr => ⟨place, hsolo, fun x hx hsmall => ?_⟩⟩
      rcases List.mem_cons.mp hx with rfl | hx
      · subst hr
        have haddr := allocateLargeObject_addr hin (by omega) hlarge
        exact absurd haddr (cfg.not_inLarge_of_inSmall hsmall)
      · exact hxs x hx hsmall
    · cases hrun
      exact ⟨⟨place, hsolo, hxs⟩, by simp⟩

/-- An attempt leaves the objects in place and returns a range that overlaps none of them. -/
theorem allocate_placed (ht : Trees cfg True g.heap.large free occupied spare)
    (hclear : Clear occupied) (hin : NodesInside cfg g.heap.large.nodes) (hfuel : depth cfg < fuel)
    (hfit : maxObjectSize < n → FitsChildless g.heap.large (getSizeWithAlignment n))
    (hsafe : AllProtected cfg g xs) (hxs : ∀ x, x ∈ xs → Placed cfg g.heap x)
    (hrun : allocateNewObject cfg fuel g n = some (g', res)) :
    (∀ x, x ∈ xs → Placed cfg g'.heap x) ∧
      ∀ r, res = some r → Placed cfg g'.heap (r, n) ∧ ∀ x, x ∈ xs → Apart (r, n) x := by
  obtain ⟨hsame, hextended⟩ := allocate_extended ht hclear hfuel hfit hrun
  obtain ⟨place, hsolo, hprot⟩ := hsafe
  rw [allocateNewObject] at hrun
  split at hrun
  · rename_i hn
    obtain ⟨⟨small, cache, r⟩, hsmall, he⟩ := Option.map_eq_some_iff.mp hrun
    cases he
    refine ⟨fun x hx => ?_, ?_⟩
    · rcases hxs x hx with hs | hl
      · exact Or.inl (call_sited hsolo hn hs hsmall)
      · exact Or.inr hl
    · rintro r rfl
      have hother : some r = none → NoOther cfg g.heap.small.mem n := by simp
      have hsmalls : ∀ x, x ∈ xs.filter (fun x => decide (cfg.InSmall x.1)) →
          Protected cfg g.heap.small ⟨.idle, g.nodesCache⟩ place x := fun x hx =>
        hprot x (List.mem_of_mem_filter hx) (by simpa using (List.mem_filter.mp hx).2)
      obtain ⟨place', -, -, hnew⟩ := call_protects hsolo hn hsmalls hother hsmall
      obtain ⟨hr, hap⟩ := hnew r rfl
      refine ⟨Or.inl hr.sited, fun x hx => ?_⟩
      rcases hxs x hx with hs | ⟨hl, hocc⟩
      · exact hap x (List.mem_filter.mpr ⟨hx, by simpa using hs.inSmall⟩)
      · obtain ⟨hlo, hhi⟩ := hocc.inside hin hl
        exact apart_of_heaps (h := ⟨small, g.heap.large⟩) hr.sited hlo hhi
  · split at hrun
    · rename_i hn
      obtain ⟨⟨large, r⟩, hlarge, he⟩ := Option.map_eq_some_iff.mp hrun
      cases he
      have hext := hextended hn.1
      have hold : ∀ x, x ∈ xs → Placed cfg ⟨g.heap.small, large⟩ x := by
        intro x hx
        rcases hxs x hx with hs | ⟨hl, hocc⟩
        · exact Or.inl hs
        · exact Or.inr ⟨hl, hext.kept _ _ hocc⟩
      refine ⟨hold, ?_⟩
      rintro r rfl
      have haddr : cfg.InLarge r := allocateLargeObject_addr hin (by omega) hlarge
      have hnew : Placed cfg ⟨g.heap.small, large⟩ (r, n) := Or.inr ⟨haddr, hext.taken r rfl⟩
      obtain ⟨free', occupied', spare', ht', -⟩ := hext.trees
      refine ⟨hnew, fun x hx => ?_⟩
      apply Placed.apart ht' (allocateLargeObject_inside hin hlarge) hnew (hold x hx)
      rintro rfl
      rcases hxs x hx with hs | ⟨-, hocc⟩
      · exact cfg.not_inLarge_of_inSmall hs.inSmall haddr
      · exact hext.new trivial _ rfl _ hocc
    · cases hrun
      exact ⟨hxs, by simp⟩

end Attempts

section Sweeps

variable {cfg : Config} {fuel n : Nat} {g g' : Gc} {x : Nat × Nat} {xs : List (Nat × Nat)}
  {free occupied : BlockTree} {spare : List Nat}

/-- The flag behind a large object that is marked. -/
theorem flag_of_marked {h : Heap} {o : Nat} (ho : cfg.InLarge o)
    (hm : isMarked cfg fuel h o = some true) :
    ∃ i, Below h.large.nodes h.large.occupiedRoot i ∧ (h.large.nodes i).block.addr = o ∧
      flagsOf h.large.nodes i = true := by
  simp only [isMarked, if_pos ho] at hm
  obtain ⟨found, hfound, hflag⟩ := Option.bind_eq_some_iff.mp hm
  cases found with
  | none => cases hflag
  | some i =>
    obtain ⟨hbelow, haddr⟩ := searchBst_below hfound
    exact ⟨i, hbelow, haddr, Option.some.inj hflag⟩

theorem marked_protected (hs : Sited cfg g.heap.mem x)
    (hm : isMarked cfg fuel g.heap x.1 = some true) :
    Protected cfg (sweepSmallHeap cfg g.heap.small) ⟨.idle, fun _ => none⟩
      (sweptPlace cfg (Fin 1) g.heap.mem) x := by
  obtain ⟨b, k, hstart, hk, hsize⟩ := hs.slotStart
  rw [hstart.isMarked, Option.some.injEq] at hm
  have hn : InRange x.2 := hsize ▸ hstart.size
  exact swept_protected hstart.block hn hk hsize (hsize ▸ hstart.addr) hm

theorem Recovered.occupies {large : LargeAllocator} {o m : Nat}
    (hrec : Recovered cfg True g.heap.large large)
    (ht : Trees cfg True g.heap.large free occupied spare) (ho : cfg.InLarge o)
    (hocc : Occupies g.heap.large o m) (hm : isMarked cfg fuel g.heap o = some true) :
    Occupies large o m := by
  obtain ⟨i, hbelow, haddr, hflag⟩ := flag_of_marked ho hm
  have hkept := hrec.kept i hbelow hflag
  rwa [haddr, ht.size_unique ⟨i, hbelow, haddr, rfl⟩ hocc] at hkept

/-- A sweep leaves the marked objects where they are. -/
theorem Lies.sweep {large : LargeAllocator} {o m : Nat}
    (hrec : Recovered cfg True g.heap.large large)
    (ht : Trees cfg True g.heap.large free occupied spare) (ho : Lies cfg g.heap o m)
    (hm : isMarked cfg fuel g.heap o = some true) :
    Lies cfg ⟨sweepSmallHeap cfg g.heap.small, large⟩ o m := by
  rcases ho with ⟨p, ho, hp⟩ | ⟨ho, hocc⟩
  · exact Or.inl ⟨p, (marked_protected ho hm).sited, hp⟩
  · exact Or.inr ⟨ho, hrec.occupies ht ho hocc hm⟩

/-- A sweep keeps the marked objects, and no call returns a small one of them. -/
theorem sweep_placed (h : Marked cfg g) (ht : Trees cfg True g.heap.large free occupied spare)
    (hfuel : depth cfg < fuel)
    (hone : FreesOneSided (flagsOf g.heap.large.nodes) g.heap.large.nodes
      g.heap.large.occupiedRoot)
    (hxs : ∀ x, x ∈ xs → Placed cfg g.heap x ∧ isMarked cfg fuel g.heap x.1 = some true)
    (hrun : sweep cfg fuel g = some g') :
    AllProtected cfg g' xs ∧ ∀ x, x ∈ xs → Placed cfg g'.heap x := by
  obtain ⟨large, hlarge, rfl⟩ := Option.map_eq_some_iff.mp hrun
  have hf : cfg.treenodeCount + 1 < fuel := by
    simp only [depth] at hfuel
    omega
  have hrec := ht.sweep (fun _ => hone) hf hlarge
  refine ⟨⟨_, h.cache ▸ swept_solo h.small, fun x hx hin => ?_⟩, fun x hx => ?_⟩
  · rw [h.cache]
    obtain ⟨hplaced, hmark⟩ := hxs x hx
    rcases hplaced with hs | ⟨hl, -⟩
    · exact marked_protected hs hmark
    · exact absurd hl (cfg.not_inLarge_of_inSmall hin)
  · obtain ⟨hplaced, hmark⟩ := hxs x hx
    rcases hplaced with hs | ⟨hl, hocc⟩
    · exact Or.inl (marked_protected hs hmark).sited
    · exact Or.inr ⟨hl, hrec.occupies ht hl hocc hmark⟩

end Sweeps

end GarbageCollector
