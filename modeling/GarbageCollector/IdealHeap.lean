import Mathlib.Data.List.Basic
import Mathlib.Data.List.Pairwise

/-!
# A heap of regions with contents of their own

The heap that a program would like to have: a region is an array that overlaps no other region,
a write changes the cells it falls on, and regions that are forgotten take nothing with them. A flat
memory reflects such a heap when each range of it reads as the region that it stands for.
-/

namespace IdealHeap

universe u

variable {V : Type u}

structure Region (V : Type u) where
  addr : Nat
  size : Nat
  /-- By the distance from the start. -/
  contents : Nat → V

namespace Region

def range (r : Region V) : Nat × Nat := (r.addr, r.size)

/-- The region that a flat memory holds. -/
def ofMemory (m : Nat → V) (addr size : Nat) : Region V := ⟨addr, size, fun i => m (addr + i)⟩

/-- The write of `count` values from address `a`, as far as it falls into the region. -/
def write (r : Region V) (a count : Nat) (v : Nat → V) : Region V where
  addr := r.addr
  size := r.size
  contents i :=
    if a ≤ r.addr + i ∧ r.addr + i < a + count then v (r.addr + i - a) else r.contents i

def Reads (r : Region V) (m : Nat → V) : Prop := ∀ i, i < r.size → m (r.addr + i) = r.contents i

end Region

def Disjoint (x y : Nat × Nat) : Prop := x.1 + x.2 ≤ y.1 ∨ y.1 + y.2 ≤ x.1

structure Heap (V : Type u) where
  regions : List (Region V)
  apart : regions.Pairwise fun r r' => Disjoint r.range r'.range

def Heap.empty : Heap V := ⟨[], List.Pairwise.nil⟩

inductive Action (V : Type u) where
  /-- A new region, with contents that the program may not rely on. -/
  | claim (r : Region V)
  /-- All regions are forgotten but those at these addresses. -/
  | keep (p : Nat → Prop)
  | write (a count : Nat) (v : Nat → V)

def Heap.write (s : Heap V) (a count : Nat) (v : Nat → V) : Heap V where
  regions := s.regions.map fun r => r.write a count v
  apart := List.pairwise_map.mpr s.apart

open Classical in
noncomputable def step (s : Heap V) : Action V → Option (Heap V)
  | .claim r =>
    if h : ∀ r', r' ∈ s.regions → Disjoint r.range r'.range then
      some ⟨r :: s.regions, List.pairwise_cons.mpr ⟨h, s.apart⟩⟩
    else none
  | .keep p => some ⟨s.regions.filter fun r => decide (p r.addr), s.apart.filter _⟩
  | .write a count v => some (s.write a count v)

/-- The memory holds the regions of the heap at these ranges. -/
structure Reflects (m : Nat → V) (ranges : List (Nat × Nat)) (s : Heap V) : Prop where
  ranges : s.regions.map Region.range = ranges
  reads : ∀ r, r ∈ s.regions → r.Reads m

section Reflects

variable {m m' : Nat → V} {ranges : List (Nat × Nat)} {s : Heap V}

theorem reflects_empty (m : Nat → V) : Reflects m [] Heap.empty :=
  ⟨rfl, fun _ hr => nomatch hr⟩

theorem Reflects.mem_ranges (h : Reflects m ranges s) {r : Region V} (hr : r ∈ s.regions) :
    r.range ∈ ranges :=
  h.ranges ▸ List.mem_map_of_mem hr

/-- What happens outside the ranges is not seen. -/
theorem Reflects.frame (h : Reflects m ranges s)
    (same : ∀ x, x ∈ ranges → ∀ i, i < x.2 → m' (x.1 + i) = m (x.1 + i)) :
    Reflects m' ranges s := by
  constructor
  · exact h.ranges
  · intro r hr i hi
    exact (same r.range (h.mem_ranges hr) i hi).trans (h.reads r hr i hi)

theorem Reflects.claim (h : Reflects m ranges s) {addr size : Nat}
    (apart : ∀ x, x ∈ ranges → Disjoint (addr, size) x) :
    ∃ s', step s (.claim (Region.ofMemory m addr size)) = some s' ∧
      Reflects m ((addr, size) :: ranges) s' := by
  have hall : ∀ r', r' ∈ s.regions → Disjoint (Region.ofMemory m addr size).range r'.range :=
    fun r' hr' => apart r'.range (h.mem_ranges hr')
  refine ⟨_, dif_pos hall, ?_⟩
  constructor
  · exact congrArg ((addr, size) :: ·) h.ranges
  · intro r hr
    rcases List.mem_cons.mp hr with rfl | hr
    · exact fun _ _ => rfl
    · exact h.reads r hr

theorem Reflects.keep (h : Reflects m ranges s) {p : Nat → Prop} {q : Nat × Nat → Bool}
    (hq : ∀ x, x ∈ ranges → (q x = true ↔ p x.1)) :
    ∃ s', step s (.keep p) = some s' ∧ Reflects m (ranges.filter q) s' := by
  classical
  refine ⟨_, rfl, ?_⟩
  constructor
  · rw [← h.ranges, List.filter_map]
    congr 1
    apply List.filter_congr
    intro r hr
    exact Bool.eq_iff_iff.mpr (decide_eq_true_iff.trans (hq r.range (h.mem_ranges hr)).symm)
  · exact fun r hr => h.reads r (List.mem_of_mem_filter hr)

theorem Reflects.write (h : Reflects m ranges s) {a count : Nat} {v : Nat → V}
    (hm : ∀ x, m' x = if a ≤ x ∧ x < a + count then v (x - a) else m x) :
    ∃ s', step s (.write a count v) = some s' ∧ Reflects m' ranges s' := by
  refine ⟨s.write a count v, rfl, ?_⟩
  constructor
  · rw [← h.ranges, Heap.write, List.map_map]
    rfl
  · intro r hr i hi
    obtain ⟨r₀, hr₀, rfl⟩ := List.mem_map.mp hr
    simp only [hm, Region.write, h.reads r₀ hr₀ i hi]

end Reflects

end IdealHeap
