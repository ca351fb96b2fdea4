import Mathlib.Data.Set.Basic
import Mathlib.Order.Interval.Set.Basic

/-!
# Lists of half-open intervals

A list of intervals in order, with a gap between any two, is determined by the set of its points.
-/

namespace GarbageCollector.Intervals

variable {α : Type*} [LinearOrder α]

/-- The points of the intervals `[p.1, p.2)`. -/
def points (l : List (α × α)) : Set α := {x | ∃ p, p ∈ l ∧ p.1 ≤ x ∧ x < p.2}

/-- No interval is empty, and each ends before the next one starts. -/
structure Spaced (l : List (α × α)) : Prop where
  gaps : l.Pairwise fun p q => p.2 < q.1
  nonempty : ∀ p, p ∈ l → p.1 < p.2

variable {l l' : List (α × α)} {p q : α × α} {x : α}

theorem mem_points : x ∈ points l ↔ ∃ p, p ∈ l ∧ p.1 ≤ x ∧ x < p.2 := Iff.rfl

theorem mem_points_cons : x ∈ points (p :: l) ↔ p.1 ≤ x ∧ x < p.2 ∨ x ∈ points l := by
  simp only [mem_points, List.mem_cons, or_and_right, exists_or, exists_eq_left]

theorem Spaced.tail (h : Spaced (p :: l)) : Spaced l :=
  ⟨(List.pairwise_cons.mp h.gaps).2, fun q hq => h.nonempty q (List.mem_cons_of_mem _ hq)⟩

theorem Spaced.head_mem (h : Spaced (p :: l)) : p.1 ∈ points (p :: l) :=
  mem_points_cons.mpr (Or.inl ⟨le_rfl, h.nonempty p List.mem_cons_self⟩)

/-- The points of the later intervals lie behind the end of the first. -/
theorem Spaced.lt_of_mem_tail (h : Spaced (p :: l)) (hx : x ∈ points l) : p.2 < x := by
  obtain ⟨q, hq, hle, -⟩ := hx
  exact lt_of_lt_of_le ((List.pairwise_cons.mp h.gaps).1 q hq) hle

theorem Spaced.head_le (h : Spaced (p :: l)) (hx : x ∈ points (p :: l)) : p.1 ≤ x := by
  rcases mem_points_cons.mp hx with ⟨hle, -⟩ | hx
  · exact hle
  · exact ((h.nonempty p List.mem_cons_self).trans (h.lt_of_mem_tail hx)).le

theorem Spaced.stop_not_mem (h : Spaced (p :: l)) : p.2 ∉ points (p :: l) := by
  intro hmem
  rcases mem_points_cons.mp hmem with ⟨-, hlt⟩ | hmem
  · exact lt_irrefl _ hlt
  · exact lt_irrefl _ (h.lt_of_mem_tail hmem)

theorem Spaced.mem_tail_iff (h : Spaced (p :: l)) :
    x ∈ points l ↔ x ∈ points (p :: l) ∧ p.2 ≤ x := by
  constructor
  · intro hx
    exact ⟨mem_points_cons.mpr (Or.inr hx), (h.lt_of_mem_tail hx).le⟩
  · rintro ⟨hx, hle⟩
    rcases mem_points_cons.mp hx with ⟨-, hlt⟩ | hx
    · exact absurd hlt (not_lt_of_ge hle)
    · exact hx

/-- The first interval ends where the points first have a gap. -/
theorem Spaced.stop_le (h' : Spaced (q :: l')) (hpoints : points (p :: l) = points (q :: l'))
    (hstart : p.1 = q.1) : p.2 ≤ q.2 := by
  by_contra hlt
  rw [not_le] at hlt
  have hq : q.2 ∈ points (p :: l) := by
    refine mem_points_cons.mpr (Or.inl ⟨?_, hlt⟩)
    rw [hstart]
    exact (h'.nonempty q List.mem_cons_self).le
  rw [hpoints] at hq
  exact h'.stop_not_mem hq

theorem Spaced.eq_of_points (h : Spaced l) (h' : Spaced l') (hpoints : points l = points l') :
    l = l' := by
  induction l generalizing l' with
  | nil =>
    cases l' with
    | nil => rfl
    | cons q l' =>
      have hmem := h'.head_mem
      rw [← hpoints] at hmem
      obtain ⟨p, hp, -⟩ := hmem
      cases hp
  | cons p l ih =>
    cases l' with
    | nil =>
      have hmem := h.head_mem
      rw [hpoints] at hmem
      obtain ⟨q, hq, -⟩ := hmem
      cases hq
    | cons q l' =>
      have hstart : p.1 = q.1 := by
        apply le_antisymm
        · apply h.head_le
          rw [hpoints]
          exact h'.head_mem
        · apply h'.head_le
          rw [← hpoints]
          exact h.head_mem
      have hstop : p.2 = q.2 := le_antisymm (h'.stop_le hpoints hstart)
        (h.stop_le hpoints.symm hstart.symm)
      have htail : points l = points l' := by
        ext x
        rw [h.mem_tail_iff, h'.mem_tail_iff, hpoints, hstop]
      rw [ih h.tail h'.tail htail, Prod.ext hstart hstop]

end GarbageCollector.Intervals
