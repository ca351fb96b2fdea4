import GarbageCollector.KeptSlots
import GarbageCollector.LargeRuns
import GarbageCollector.Memops

/-!
# `gc_calloc`

The division test excludes every product that does not fit into 64 bits, so the object is asked for
with the exact product, and the zeroing covers the bytes asked for and no other. The range is the
object of `gc_malloc` as long as the two trees share no node: otherwise `allocate_large_object` can
give the block that it has taken back to the free tree before it returns the address.
-/

namespace GarbageCollector

open Bytes

/-- `SIZE_MAX` is `2 ^ 64 - 1`. -/
def gcCalloc (cfg : Config) (fuel : Nat) (segments : List (Nat × Nat)) (g : Gc)
    (nelem elsize : Nat) : Option (Gc × Option Nat) :=
  if nelem ≠ 0 ∧ (2 ^ 64 - 1) / nelem < elsize then some (g, none)
  else
    let size := nelem * elsize % 2 ^ 64
    (gcMalloc cfg fuel segments g size).map fun p =>
      match p.2 with
      | none => (p.1, none)
      | some res =>
        ({ p.1 with heap := p.1.heap.setMem (gcMemset p.1.heap.mem res 0 size) }, some res)

/-- The range starts a whole slot of a block for its size, or a block of the occupied tree that
holds it. -/
def InObject (cfg : Config) (h : Heap) (r n : Nat) : Prop :=
  Sited cfg h.mem (r, n) ∨
    maxObjectSize < n ∧ ∃ i, Below h.large.nodes h.large.occupiedRoot i ∧
      (h.large.nodes i).block.addr = r ∧ r + n ≤ (h.large.nodes i).block.stop

/-- `g'` is `g` with `n` zeroed bytes at `r`, a number of bytes that `gc_malloc` grants. -/
structure Zeroed (cfg : Config) (g g' : Gc) (n r : Nat) : Prop where
  bounds : 1 ≤ n ∧ n ≤ cfg.heapSize
  zero : ∀ x, r ≤ x → x < r + n → g'.heap.mem x = 0#8
  frame : ∀ x, ¬ (r ≤ x ∧ x < r + n) → g'.heap.mem x = g.heap.mem x
  rest : g' = { g with heap := g.heap.setMem g'.heap.mem }

namespace Calloc

open Collector
open FailedAllocation (NoOther oneRoot start start_start)

/-- No attempt of a call of `gc_malloc` takes a free node with children. -/
structure CallTakesChildless (cfg : Config) (fuel : Nat) (segments : List (Nat × Nat)) (g : Gc)
    (n : Nat) : Prop where
  first : FitsChildless g.heap.large (getSizeWithAlignment n)
  second : ∀ g₁ g₂, allocateNewObject cfg fuel g n = some (g₁, none) →
    callServiceThread cfg fuel segments g₁ = some g₂ →
      FitsChildless g₂.heap.large (getSizeWithAlignment n)

/-- The size is small, or no attempt takes a free node with children, in the run up to `s` and in
the call. -/
def TakesNoChildren (cfg : Config) (roots : Roots cfg) (fuel : Nat) (s : State) (n : Nat) : Prop :=
  maxObjectSize < n → Reachable cfg roots TakesChildless s ∧
    CallTakesChildless cfg fuel roots.segments s.gc n

/-- There are trees behind the pointers that share no node. -/
def HasTrees (cfg : Config) (large : LargeAllocator) : Prop :=
  ∃ free occupied spare, Trees cfg False large free occupied spare ∧ Clear occupied

section Objects

variable {cfg : Config} {roots : Roots cfg} {fuel n nelem elsize r : Nat} {g g' : Gc} {s : State}
  {s₀ s' : SmallHeap} {cache cache' : NodesCache} {place₀ : Nat → Place (Fin 1)}
  {res : Option Nat}

/-- The division test fails when the product does not fit into 64 bits. -/
theorem overflow_iff (nelem elsize : Nat) :
    (nelem ≠ 0 ∧ (2 ^ 64 - 1) / nelem < elsize) ↔ 2 ^ 64 ≤ nelem * elsize := by
  rcases Nat.eq_zero_or_pos nelem with rfl | hpos
  · simp
  · rw [and_iff_right (Nat.ne_of_gt hpos), Nat.div_lt_iff_lt_mul hpos, Nat.mul_comm elsize]
    omega

theorem call_sited_answer (h : Solo cfg s₀ ⟨.idle, cache⟩ place₀) (hn : InRange n)
    (hrun : allocateSmallObject cfg fuel s₀ cache n = some (s', cache', some r)) :
    Sited cfg s'.mem (r, n) := by
  have hnone : ∀ x, x ∈ [] → Protected cfg s₀ ⟨.idle, cache⟩ place₀ x := fun x hx => nomatch hx
  have hfound : some r = none → NoOther cfg s₀.mem n := nofun
  obtain ⟨place, -, -, hnew⟩ := call_protects h hn hnone hfound hrun
  exact (hnew r rfl).1.sited

/-- The trees after an attempt, and the object that it returns. -/
theorem attempt_inObject (h : Between cfg g) (hfuel : depth cfg < fuel)
    (htrees : maxObjectSize < n →
      HasTrees cfg g.heap.large ∧ FitsChildless g.heap.large (getSizeWithAlignment n))
    (hrun : allocateNewObject cfg fuel g n = some (g', res)) :
    (maxObjectSize < n → HasTrees cfg g'.heap.large) ∧
      ∀ r, res = some r → InObject cfg g'.heap r n := by
  rcases Nat.lt_or_ge maxObjectSize n with hlt | hle
  · obtain ⟨⟨free, occupied, spare, ht, hclear⟩, hfit⟩ := htrees hlt
    have hext := (allocate_extended ht hclear hfuel (fun _ => hfit) hrun).2 hlt
    refine ⟨fun _ => hext.trees, fun r hr => Or.inr ⟨hlt, ?_⟩⟩
    obtain ⟨i, hi, haddr, hsize⟩ := hext.taken r hr
    refine ⟨i, hi, haddr, ?_⟩
    have hup := le_getSizeWithAlignment n
    simp only [Header.stop]
    omega
  · refine ⟨fun hlt => absurd hlt (Nat.not_lt.mpr hle), ?_⟩
    rintro r rfl
    rw [allocateNewObject] at hrun
    split at hrun
    · rename_i hn
      obtain ⟨⟨small, cache, found⟩, hsmall, he⟩ := Option.map_eq_some_iff.mp hrun
      cases he
      obtain ⟨place, hsolo⟩ := h.solo
      exact Or.inl (call_sited_answer hsolo hn hsmall)
    · rw [if_neg (by omega)] at hrun
      cases hrun

/-- A collection leaves trees behind the pointers. -/
theorem collect_hasTrees (h : Between cfg g) (hfuel : depth cfg < fuel)
    (htrees : HasTrees cfg g.heap.large)
    (hrun : callServiceThread cfg fuel roots.segments g = some g') :
    HasTrees cfg g'.heap.large := by
  obtain ⟨free, occupied, spare, ht, -⟩ := htrees
  obtain ⟨g₁, hstop, hsweep⟩ := Option.bind_eq_some_iff.mp hrun
  obtain ⟨large, hlarge, rfl⟩ := Option.map_eq_some_iff.mp hsweep
  have hf : cfg.treenodeCount + 1 < fuel := by
    simp only [depth] at hfuel
    omega
  exact ((ht.mark (stopAndMark_marked h hstop).2).sweep False.elim hf hlarge).trees

theorem collect_between (h : Between cfg g)
    (hrun : callServiceThread cfg fuel roots.segments g = some g') : Between cfg g' := by
  obtain ⟨g₁, hstop, hsweep⟩ := Option.bind_eq_some_iff.mp hrun
  exact sweep_between (stopAndMark_marked h hstop).1 hsweep

/-- What `gc_malloc` returns is an object in the state that it leaves. -/
theorem gcMalloc_inObject (h : Between cfg g) (hfuel : depth cfg < fuel)
    (htrees : maxObjectSize < n →
      HasTrees cfg g.heap.large ∧ CallTakesChildless cfg fuel roots.segments g n)
    (hrun : gcMalloc cfg fuel roots.segments g n = some (g', some r)) :
    InObject cfg g'.heap r n := by
  rw [gcMalloc] at hrun
  split at hrun
  · cases hrun
  · obtain ⟨⟨g₁, res₁⟩, hfirst, hrun⟩ := Option.bind_eq_some_iff.mp hrun
    obtain ⟨htrees₁, hobject⟩ := attempt_inObject h hfuel
      (fun hlt => ⟨(htrees hlt).1, (htrees hlt).2.first⟩) hfirst
    cases res₁ with
    | some r₁ =>
      cases hrun
      exact hobject r rfl
    | none =>
      obtain ⟨g₂, hcollect, hsecond⟩ := Option.bind_eq_some_iff.mp hrun
      have h₁ := allocate_between h hfirst
      have hretry := attempt_inObject (collect_between h₁ hcollect) hfuel (fun hlt =>
        ⟨collect_hasTrees h₁ hfuel (htrees₁ hlt) hcollect,
          (htrees hlt).2.second g₁ g₂ hfirst hcollect⟩) hsecond
      exact hretry.2 r rfl

theorem gcMalloc_bounds (hrun : gcMalloc cfg fuel roots.segments g n = some (g', some r)) :
    1 ≤ n ∧ n ≤ cfg.heapSize := by
  rw [gcMalloc] at hrun
  split at hrun
  · cases hrun
  · omega

end Objects

section Call

variable {cfg : Config} {roots : Roots cfg} {fuel n nelem elsize r : Nat} {g g' : Gc} {s : State}

/-- A call that returns an object is a call of `gc_malloc` for the exact product and the zeroing. -/
theorem calloc_zeroed
    (hrun : gcCalloc cfg fuel roots.segments g nelem elsize = some (g', some r)) :
    ∃ g₁, gcMalloc cfg fuel roots.segments g (nelem * elsize) = some (g₁, some r) ∧
      Zeroed cfg g₁ g' (nelem * elsize) r := by
  rw [gcCalloc] at hrun
  split at hrun
  · cases hrun
  · rename_i hfits
    rw [overflow_iff, not_le] at hfits
    obtain ⟨⟨g₁, res⟩, hmalloc, he⟩ := Option.map_eq_some_iff.mp hrun
    rw [Nat.mod_eq_of_lt hfits] at hmalloc he
    cases res with
    | none => cases he
    | some r₁ =>
      cases he
      refine ⟨g₁, hmalloc, gcMalloc_bounds hmalloc, fun x hlo hhi => ?_, fun x hx => ?_, rfl⟩
      · have hset := gcMemset_apply g₁.heap.mem r 0 (nelem * elsize) x
        rw [if_pos ⟨hlo, hhi⟩] at hset
        exact hset
      · have hset := gcMemset_apply g₁.heap.mem r 0 (nelem * elsize) x
        rw [if_neg hx] at hset
        exact hset

theorem calloc_refused (hn : nelem * elsize = 0 ∨ cfg.heapSize < nelem * elsize) :
    gcCalloc cfg fuel roots.segments g nelem elsize = some (g, none) := by
  rw [gcCalloc]
  split
  · rfl
  · rename_i hfits
    rw [overflow_iff, not_le] at hfits
    simp only [Nat.mod_eq_of_lt hfits]
    rw [gcMalloc, if_pos (by omega)]
    rfl

/-- `gc_calloc` returns the exact number of zeroed bytes, or nothing, and the bytes are those of an
object unless an attempt has taken a free node with children. -/
theorem calloc_never_short (h : Reachable cfg roots Transition.anyStep s)
    (hphase : s.phase = .mutator) (hfuel : depth cfg < fuel) :
    (∀ g' r, gcCalloc cfg fuel roots.segments s.gc nelem elsize = some (g', some r) →
      ∃ g₁, gcMalloc cfg fuel roots.segments s.gc (nelem * elsize) = some (g₁, some r) ∧
        Zeroed cfg g₁ g' (nelem * elsize) r ∧
        (TakesNoChildren cfg roots fuel s (nelem * elsize) →
          InObject cfg g₁.heap r (nelem * elsize))) ∧
    (nelem * elsize = 0 ∨ cfg.heapSize < nelem * elsize →
      gcCalloc cfg fuel roots.segments s.gc nelem elsize = some (s.gc, none)) := by
  refine ⟨fun g' r hrun => ?_, calloc_refused⟩
  obtain ⟨g₁, hmalloc, hzeroed⟩ := calloc_zeroed hrun
  refine ⟨g₁, hmalloc, hzeroed, fun hno => ?_⟩
  refine gcMalloc_inObject ((reachable_inv h).between (by simp [hphase])) hfuel ?_ hmalloc
  intro hlt
  obtain ⟨hs, hcall⟩ := hno hlt
  obtain ⟨free, occupied, spare, ht, hclear⟩ : LargeInv cfg False s :=
    reachable_largeInv hs (fun _ _ hok => hok) False.elim
  exact ⟨⟨free, occupied, spare, ht, hclear (by simp [hphase])⟩, hcall⟩

end Call

/-- Three elements of 8 bytes behind an object that is written to, and 260 of them where the program
has written: they take the rest of the large heap. -/
theorem calloc_never_short_both :
    (∃ (s : State) (g₁ g' : Gc),
      gcCalloc oneBlock 8196 oneRoot.segments s.gc 3 8 = some (g', some 4176) ∧
        Zeroed oneBlock g₁ g' 24 4176 ∧ InObject oneBlock g₁.heap 4176 24) ∧
    ∃ (s : State) (g₁ g' : Gc), s.gc.heap.mem 10208 = 7#8 ∧
      gcCalloc oneBlock 8196 oneRoot.segments s.gc 260 8 = some (g', some 10208) ∧
        Zeroed oneBlock g₁ g' 2080 10208 ∧ InObject oneBlock g₁.heap 10208 2080 := by
  have hstart : Reachable oneBlock oneRoot TakesChildless start := .init start_start
  constructor
  · obtain ⟨s, hr, hphase, hcalloc⟩ := hstart.exists_of_run [.store 4176 7]
      (fun s => s.phase = .mutator ∧ (gcCalloc oneBlock 8196 oneRoot.segments s.gc 3 8).any
        (fun p => decide (p.2 = some 4176)) = true)
      (by decide +kernel)
    obtain ⟨⟨g', res⟩, hp, hres⟩ := (Option.any_eq_true _ _).mp hcalloc
    obtain rfl : res = some 4176 := of_decide_eq_true hres
    obtain ⟨g₁, -, hzeroed, hobject⟩ :=
      (calloc_never_short (hr.mono fun _ _ _ => trivial) hphase (by decide)).1 g' 4176 hp
    exact ⟨s, g₁, g', hp, hzeroed, hobject fun hlt => absurd hlt (by decide)⟩
  · obtain ⟨s, hr, hphase, hdirty, hfit, hfirst, hcalloc⟩ :=
      hstart.exists_of_run [.malloc 2016 8196, .store 10208 7]
      (fun s => s.phase = .mutator ∧ s.gc.heap.mem 10208 = 7#8 ∧
        FitsChildless s.gc.heap.large (getSizeWithAlignment 2080) ∧
        ¬ FailedAllocation.Fails oneBlock 8196 s.gc 2080 ∧
        (gcCalloc oneBlock 8196 oneRoot.segments s.gc 260 8).any
          (fun p => decide (p.2 = some 10208)) = true)
      (by decide +kernel)
    obtain ⟨⟨g', res⟩, hp, hres⟩ := (Option.any_eq_true _ _).mp hcalloc
    obtain rfl : res = some 10208 := of_decide_eq_true hres
    obtain ⟨g₁, -, hzeroed, hobject⟩ :=
      (calloc_never_short (hr.mono fun _ _ _ => trivial) hphase (by decide)).1 g' 10208 hp
    refine ⟨s, g₁, g', hdirty, hp, hzeroed, hobject fun _ => ⟨hr, hfit, ?_⟩⟩
    exact fun g₁ _ hnone _ => absurd (FailedAllocation.fails_of_none hnone) hfirst

/-- One root word. -/
def rootWord : Roots twoBlocks where
  segments := [(96, 104)]
  bounds := by decide
  apart := by decide
  apartLarge := by decide

/-- The first of two objects is freed, and the next attempt takes the node above the freed one,
which is in both trees from then on. A collection frees it a second time, while it is free; in the
end it is the root of the free tree and, with a child pointer to itself, of the tree that is left
when it has been taken. -/
def freedTwice : List Action :=
  [.malloc 2016 16390, .malloc 2016 16390, .store 96 18400, .malloc 8192 16390, .mark 16390,
    .sweep 16390, .retry 16390, .malloc 2016 16390, .store 96 0, .malloc 4096 16390, .mark 16390,
    .sweep 16390, .retry 16390, .malloc 2016 16390]

/-- Only node 3 holds a block at `a`, and no other node of the four leads to it. -/
def OnlyNodeThree (nodes : Nodes) (a : Nat) : Prop :=
  ∀ i, i < 4 → i ≠ 3 → (nodes i).block.addr ≠ a ∧
    (nodes i).left.all (fun j => decide (j < 4 ∧ j ≠ 3)) = true ∧
    (nodes i).right.all (fun j => decide (j < 4 ∧ j ≠ 3)) = true

instance (nodes : Nodes) (a : Nat) : Decidable (OnlyNodeThree nodes a) :=
  inferInstanceAs (Decidable (∀ i, i < 4 → i ≠ 3 → _))

theorem OnlyNodeThree.addr_ne {nodes : Nodes} {a j : Nat} {p : Option Nat}
    (h : OnlyNodeThree nodes a) (hp : p.all (fun j => decide (j < 4 ∧ j ≠ 3)) = true)
    (hb : Below nodes p j) : (nodes j).block.addr ≠ a := by
  induction hb with
  | here i =>
    obtain ⟨hlt, hne⟩ := of_decide_eq_true hp
    exact (h i hlt hne).1
  | left _ ih =>
    obtain ⟨hlt, hne⟩ := of_decide_eq_true hp
    exact ih (h _ hlt hne).2.1
  | right _ ih =>
    obtain ⟨hlt, hne⟩ := of_decide_eq_true hp
    exact ih (h _ hlt hne).2.2

/-- The block that `allocate_large_object` has taken is the left neighbor of what is left of it:
`insert_treap` finds its node in the free tree and joins them. No block of the occupied tree starts
at the address returned. -/
theorem block_given_back :
    ¬ ∀ (cfg : Config) (roots : Roots cfg) (s : State) (fuel nelem elsize r : Nat) (g₁ g' : Gc),
      Reachable cfg roots Transition.anyStep s → s.phase = .mutator → depth cfg < fuel →
      gcCalloc cfg fuel roots.segments s.gc nelem elsize = some (g', some r) →
      gcMalloc cfg fuel roots.segments s.gc (nelem * elsize) = some (g₁, some r) →
      InObject cfg g₁.heap r (nelem * elsize) := by
  intro h
  have hstart : Reachable twoBlocks rootWord Transition.anyStep (initial twoBlocks fun _ => 0#8) :=
    .init ⟨_, fun _ _ _ => rfl, rfl⟩
  obtain ⟨s, hr, hphase, hcalloc, hmalloc⟩ := hstart.exists_of_run freedTwice
    (fun s => s.phase = .mutator ∧
      (gcCalloc twoBlocks 16390 rootWord.segments s.gc 1 2016).any
        (fun p => decide (p.2 = some 22496)) = true ∧
      (gcMalloc twoBlocks 16390 rootWord.segments s.gc 2016).any
        (fun p => decide (p.2 = some 22496 ∧ p.1.heap.large.occupiedRoot = some 1 ∧
          OnlyNodeThree p.1.heap.large.nodes 22496)) = true)
    (by decide +kernel)
  obtain ⟨⟨g', res⟩, hp, hres⟩ := (Option.any_eq_true _ _).mp hcalloc
  obtain rfl : res = some 22496 := of_decide_eq_true hres
  obtain ⟨⟨g₁, res⟩, hp₁, hres₁⟩ := (Option.any_eq_true _ _).mp hmalloc
  obtain ⟨hfound, hroot, honly⟩ := of_decide_eq_true hres₁
  obtain rfl : res = some 22496 := hfound
  rcases h twoBlocks rootWord s 16390 1 2016 22496 g₁ g' hr hphase (by decide) hp hp₁ with
    ⟨b, k, -, hn, -⟩ | ⟨-, i, hi, haddr, -⟩
  · exact absurd hn.2 (by decide)
  · rw [hroot] at hi
    exact honly.addr_ne (by decide) hi haddr

end Calloc

end GarbageCollector
