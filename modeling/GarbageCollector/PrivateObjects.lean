import GarbageCollector.IdealHeap
import GarbageCollector.Realloc
import GarbageCollector.Simulation

/-!
# What a program sees of its objects

Seen through the answers of `gc_malloc`, the collector is a heap of regions with contents of their
own: an answer claims a region that overlaps no other, a collection forgets the regions whose
objects are not live when it starts, and the contents change by the stores of the program only.
-/

namespace GarbageCollector.PrivateObjects

open Collector SafeRuns
open ConcurrentAlloc (Apart)
open ExactMarking (Live)
open FailedAllocation (oneRoot start start_start)
open IdealHeap (Region Reflects)

/-- The bytes of an answer for this size: slots and large blocks are as long as the aligned size. -/
def extent (x : Nat × Nat) : Nat × Nat := (x.1, getSizeWithAlignment x.2)

def wordBytes (value i : Nat) : BitVec 8 := BitVec.ofNat 8 (value / 256 ^ i)

section Shown

variable (cfg : Config) (roots : Roots cfg)

/-- The bound is enough for every tree. -/
def hasMark (h : Heap) (x : Nat × Nat) : Bool := isMarked cfg (depth cfg + 1) h x.1 == some true

/-- The answers whose objects stay: once `mark` has run, the marked ones. -/
def usable (s : State) : List (Nat × Nat) :=
  match s.phase with
  | .marked _ => (held s).filter (hasMark cfg s.gc.heap)
  | _ => held s

def claims (s s' : State) : List (IdealHeap.Action (BitVec 8)) :=
  (s'.answers.take (s'.answers.length - s.answers.length)).map fun x =>
    .claim (Region.ofMemory s'.gc.heap.mem x.addr (getSizeWithAlignment x.size))

/-- What a step does to the objects of the program. -/
def shown (s : State) (a : Action) (s' : State) : List (IdealHeap.Action (BitVec 8)) :=
  match a with
  | .malloc _ _ | .retry _ => claims s s'
  | .mark fuel => [.keep (Live cfg fuel s.gc.heap roots.segments)]
  | .sweep _ => []
  | .store w value => [.write w 8 (wordBytes value)]

/-- The regions of the heap are the objects that the program may use, with what they contain. -/
def SeenAs (s : State) (a : IdealHeap.Heap (BitVec 8)) : Prop :=
  Reflects s.gc.heap.mem ((usable cfg s).map extent) a

end Shown

section Steps

variable {cfg : Config} {roots : Roots cfg} {s s' : State} {n fuel : Nat} {phase : Phase} {g : Gc}
  {p : Gc × Option Nat} {a : IdealHeap.Heap (BitVec 8)} {xs : List (Nat × Nat)} {h : Heap}
  {m' : Bytes.Mem}

theorem usable_of_phase (hphase : ∀ n, s.phase ≠ .marked n) : usable cfg s = held s := by
  unfold usable
  split
  · rename_i n hn
    exact absurd hn (hphase n)
  · rfl

theorem usable_subset : usable cfg s ⊆ held s := by
  unfold usable
  split
  · exact List.filter_subset_self _
  · exact List.Subset.refl _

/-- A change of block headers changes no byte of an object. -/
theorem same_bytes (hin : NodesInside cfg h.large.nodes) (hplaced : ∀ x, x ∈ xs → Placed cfg h x)
    (same : SameOutsideHeaders cfg h.mem m') :
    ∀ y, y ∈ xs.map extent → ∀ i, i < y.2 → m' (y.1 + i) = h.mem (y.1 + i) := by
  intro y hy i hi
  obtain ⟨x, hx, rfl⟩ := List.mem_map.mp hy
  apply same
  exact (hplaced x hx).lies.not_headerByte hin (Nat.le_add_right _ _) (Nat.add_lt_add_left hi _)

theorem disjoint_extent {x y : Nat × Nat} (h : Apart x y) :
    IdealHeap.Disjoint (extent x) (extent y) := h

theorem claims_none : claims s (s.attempted n phase (g, none)) = [] := by
  simp [claims, State.attempted]

theorem claims_some {r : Nat} : claims s (s.attempted n phase (g, some r)) =
    [.claim (Region.ofMemory g.heap.mem r (getSizeWithAlignment n))] := by
  have hlen : (s.attempted n phase (g, some r)).answers.length - s.answers.length = 1 := by
    simp only [State.attempted, List.length_cons]
    omega
  rw [claims, hlen]
  rfl

/-- An attempt claims its answer and changes no byte of an object. -/
theorem attempted_shown (hbefore : s.phase = .mutator ∨ s.phase = .swept n)
    (hafter : ∀ m, phase ≠ .marked m) (hi : Between cfg s.gc) (hsafe : SafeInv cfg s)
    (hsafe' : SafeInv cfg (s.attempted n phase p))
    (hrun : allocateNewObject cfg fuel s.gc n = some p) (hr : SeenAs cfg s a) :
    ∃ a', Transition.run IdealHeap.step Transition.anyStep a (claims s (s.attempted n phase p)) =
      some a' ∧ SeenAs cfg (s.attempted n phase p) a' := by
  have hheld : usable cfg s = held s :=
    usable_of_phase fun m hm => by rcases hbefore with hb | hb <;> cases hb.symm.trans hm
  rw [SeenAs, hheld] at hr
  obtain ⟨g', res⟩ := p
  have hsame : SameOutsideHeaders cfg s.gc.heap.mem g'.heap.mem := allocate_outside hi hrun
  have hr' : Reflects g'.heap.mem ((held s).map extent) a :=
    hr.frame (same_bytes hi.inside hsafe.placed hsame)
  cases res with
  | none =>
    refine ⟨a, ?_, ?_⟩
    · rw [claims_none]
      rfl
    · rw [SeenAs, usable_of_phase hafter, held_none]
      exact hr'
  | some r =>
    have hap : ∀ y, y ∈ (held s).map extent → IdealHeap.Disjoint (extent (r, n)) y := by
      intro y hy
      obtain ⟨x, hx, rfl⟩ := List.mem_map.mp hy
      exact disjoint_extent ((List.pairwise_cons.mp hsafe'.apart).1 x hx)
    obtain ⟨a', hstep, hreflects⟩ := hr'.claim hap
    refine ⟨a', ?_, ?_⟩
    · rw [claims_some, Transition.run_one]
      exact hstep
    · rw [SeenAs, usable_of_phase (by simp [State.attempted]), held_some]
      exact hreflects

/-- `mark` decides what stays: the objects that are live when it starts. -/
theorem mark_shown (hs : Reachable cfg roots (Faultless cfg roots) s) (hphase : s.phase = .failed n)
    (hfuel : depth cfg < fuel) (hok : Faultless cfg roots s (.mark fuel))
    (hrun : stopAndMark cfg fuel roots.segments s.gc = some g) (hr : SeenAs cfg s a) :
    ∃ a', Transition.run IdealHeap.step Transition.anyStep a
      [.keep (Live cfg fuel s.gc.heap roots.segments)] = some a' ∧
        SeenAs cfg (s.afterMark n g) a' := by
  have hi : Between cfg s.gc := (reachable_inv hs).between (by simp [hphase])
  have hsame : SameOutsideHeaders cfg s.gc.heap.mem g.heap.mem :=
    (stopAndMark_marked hi hrun).2.same.mem.outside
  have hstep : step cfg roots s (.mark fuel) = some (s.afterMark n g) := by
    simp only [step, Action.Deep, if_pos hfuel, hphase, hrun, Option.map_some]
  rw [SeenAs, usable_of_phase (by simp [hphase])] at hr
  have hr' : Reflects g.heap.mem ((held s).map extent) a :=
    hr.frame (same_bytes hi.inside (reachable_safe hs).placed hsame)
  have hlive : ∀ y, y ∈ (held s).map extent →
      (hasMark cfg g.heap y = true ↔ Live cfg fuel s.gc.heap roots.segments y.1) := by
    intro y hy
    obtain ⟨_, hheld, rfl⟩ := List.mem_map.mp hy
    obtain ⟨x, hx, rfl⟩ := List.mem_map.mp hheld
    obtain ⟨hanswer, hkept⟩ := List.mem_filter.mp hx
    have hcollect := collect_iff_live hs hok hstep (Nat.lt_succ_self (depth cfg)) hanswer hkept
    simp only [Answer.collect, hkept, Bool.true_and] at hcollect
    exact hcollect
  obtain ⟨a', hkeep, hreflects⟩ := hr'.keep hlive
  refine ⟨a', (Transition.run_one a _).trans hkeep, ?_⟩
  rw [List.filter_map] at hreflects
  exact hreflects

theorem held_afterSweep : held (s.afterSweep cfg fuel n g) =
    (held s).filter fun x => isMarked cfg fuel s.gc.heap x.1 == some true := by
  simp only [held, State.afterSweep, List.filter_map, List.map_map, List.filter_filter]
  congr 1
  apply List.filter_congr
  intro x _
  simp only [Function.comp_apply, Answer.collect, range]
  exact Bool.and_comm _ _

/-- `sweep` changes no byte of an object that stays. -/
theorem sweep_seen (hs : Reachable cfg roots (Faultless cfg roots) s) (hphase : s.phase = .marked n)
    (hfuel : depth cfg < fuel) (hrun : GarbageCollector.sweep cfg fuel s.gc = some g)
    (hr : SeenAs cfg s a) : SeenAs cfg (s.afterSweep cfg fuel n g) a := by
  have hi : Marked cfg s.gc := (reachable_inv hs).marked hphase
  obtain ⟨free, occupied, spare, ht, -⟩ : LargeInv cfg True s :=
    reachable_largeInv hs (fun _ _ hok => hok.clears.1) fun _ _ _ hok => hok.oneSided
  have hlen := ht.shape.length
  have hdepth : occupied.size < depth cfg + 1 := by
    simp only [depth]
    omega
  have hbound : occupied.size < fuel := by omega
  have hmarks : ∀ x, (isMarked cfg fuel s.gc.heap x == some true) =
      (isMarked cfg (depth cfg + 1) s.gc.heap x == some true) := by
    intro x
    rw [isMarked_fuel ht.shape.occupiedTree hdepth hbound x]
  have husable : usable cfg (s.afterSweep cfg fuel n g) = usable cfg s := by
    rw [usable_of_phase (by simp [State.afterSweep]), held_afterSweep]
    simp only [usable, hphase, hmarks]
    rfl
  rw [SeenAs, husable]
  apply Reflects.frame hr
  exact same_bytes hi.inside (fun x hx => (reachable_safe hs).placed x (usable_subset hx))
    (sweep_outside hrun)

/-- Every step does to the objects what it shows. -/
theorem step_shown {x : Action} (hs : Reachable cfg roots (Faultless cfg roots) s)
    (hs' : Reachable cfg roots (Faultless cfg roots) s') (hr : SeenAs cfg s a)
    (hok : Faultless cfg roots s x) (hstep : step cfg roots s x = some s') :
    ∃ a', Transition.run IdealHeap.step Transition.anyStep a (shown cfg roots s x s') = some a' ∧
      SeenAs cfg s' a' := by
  have hsafe := reachable_safe hs
  have hsafe' := reachable_safe hs'
  have hi : Inv cfg s := reachable_inv hs
  cases step_outcome hstep with
  | refused =>
    refine ⟨a, ?_, hr⟩
    simp [shown, claims, Transition.run]
  | malloc hphase _ _ hrun =>
    exact attempted_shown (Or.inl hphase) (by simp) (hi.between (by simp [hphase])) hsafe hsafe'
      hrun hr
  | mark hphase hfuel hrun => exact mark_shown hs hphase hfuel hok hrun hr
  | sweep hphase hfuel hrun => exact ⟨a, rfl, sweep_seen hs hphase hfuel hrun hr⟩
  | retry hphase _ hrun =>
    exact attempted_shown (Or.inr hphase) (by simp) (hi.between (by simp [hphase])) hsafe hsafe'
      hrun hr
  | @store w value hphase _ =>
    rw [SeenAs, usable_of_phase (by simp [hphase])] at hr
    have hstored : ∀ x, Bytes.store64 s.gc.heap.mem w value x =
        if w ≤ x ∧ x < w + 8 then wordBytes value (x - w) else s.gc.heap.mem x := fun _ => rfl
    obtain ⟨a', hwrite, hreflects⟩ := hr.write hstored
    refine ⟨a', (Transition.run_one a _).trans hwrite, ?_⟩
    rw [SeenAs, usable_of_phase (by simp [State.store, hphase])]
    exact hreflects

/-- Whatever the program does, its objects go through exactly what the run shows: the answers, the
collections of what is not live, and its own stores. -/
theorem runs_on_ideal_heap {ys : List (IdealHeap.Action (BitVec 8))}
    (hs : Reachable cfg roots (Faultless cfg roots) s) (hr : SeenAs cfg s a)
    (hshows : Transition.Shows (step cfg roots) (Faultless cfg roots) (shown cfg roots) s ys s') :
    ∃ a', Transition.run IdealHeap.step Transition.anyStep a ys = some a' ∧ SeenAs cfg s' a' :=
  hshows.matched (I := Reachable cfg roots (Faultless cfg roots)) (R := SeenAs cfg)
    (fun _ h => h) (fun _ _ _ _ hc hc' hr hok hstep => step_shown hc hc' hr hok hstep) hs hr

end Steps

/-- An object of 8 bytes keeps the word stored into it while a collection frees a large object and
`gc_malloc` returns its range again. -/
theorem runs_on_ideal_heap_collection :
    ∃ (s : State) (ys : List (IdealHeap.Action (BitVec 8))) (a : IdealHeap.Heap (BitVec 8)),
      usable oneBlock s = [(8192, 4096), (4176, 8)] ∧ Bytes.load64 s.gc.heap.mem 4176 = 77 ∧
      Transition.run IdealHeap.step Transition.anyStep IdealHeap.Heap.empty ys = some a ∧
      SeenAs oneBlock s a := by
  have hstart : Reachable oneBlock oneRoot (Faultless oneBlock oneRoot) start := .init start_start
  have hempty : SeenAs oneBlock start IdealHeap.Heap.empty := IdealHeap.reflects_empty _
  obtain ⟨ys, s, hshows, husable, hword⟩ : ∃ ys s, Transition.Shows (step oneBlock oneRoot)
      (Checked oneBlock) (shown oneBlock oneRoot) start ys s ∧
      usable oneBlock s = [(8192, 4096), (4176, 8)] ∧ Bytes.load64 s.gc.heap.mem 4176 = 77 :=
    Transition.shows_of_run (step oneBlock oneRoot) (Checked oneBlock) (shown oneBlock oneRoot)
      [.malloc 8 8196, .store 104 4176, .store 4176 77, .malloc 4096 8196, .malloc 4096 8196,
        .mark 8196, .sweep 8196, .retry 8196] _ (by decide +kernel)
  have hfaultless : Transition.Shows (step oneBlock oneRoot) (Faultless oneBlock oneRoot)
      (shown oneBlock oneRoot) start ys s := hshows.mono fun _ _ hok => faultless_of_checked hok
  obtain ⟨a, ha, hseen⟩ := runs_on_ideal_heap hstart hempty hfaultless
  exact ⟨s, ys, a, husable, hword, ha, hseen⟩

end GarbageCollector.PrivateObjects
