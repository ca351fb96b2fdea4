import Mathlib.Logic.Basic

/-!
# While loops

`while (cond) body` on any type of states, as a function that gives up when its fuel is used up.
A loop ends if some number drops in each iteration; it never does if its condition is invariant.
-/

namespace WhileLoop

universe u

variable {S : Type u}

/-- The loop, for at most `fuel` tests of its condition. -/
def loop (cond : S → Bool) (body : S → S) : Nat → S → Option S
  | 0, _ => none
  | fuel + 1, s => if cond s = true then loop cond body fuel (body s) else some s

variable {cond : S → Bool} {body : S → S} {I : S → Prop} {μ : S → Nat} {fuel : Nat} {s : S}

/-- Total correctness: the invariant holds at the end, and the condition does not. -/
theorem loop_total
    (keep : ∀ s, I s → cond s = true → I (body s) ∧ μ (body s) < μ s) (h : I s)
    (hf : μ s < fuel) :
    ∃ s', loop cond body fuel s = some s' ∧ I s' ∧ cond s' = false := by
  induction fuel generalizing s with
  | zero => exact absurd hf (Nat.not_lt_zero _)
  | succ fuel ih =>
    rw [loop]
    by_cases hc : cond s = true
    · obtain ⟨hi, hlt⟩ := keep s h hc
      rw [if_pos hc]
      exact ih hi (by omega)
    · rw [if_neg hc]
      exact ⟨s, rfl, h, eq_false_of_ne_true hc⟩

/-- A loop whose condition cannot become false does not end. -/
theorem loop_diverges (keep : ∀ s, I s → cond s = true ∧ I (body s)) (h : I s) :
    loop cond body fuel s = none := by
  induction fuel generalizing s with
  | zero => rfl
  | succ fuel ih =>
    obtain ⟨hc, hi⟩ := keep s h
    rw [loop, if_pos hc]
    exact ih hi

end WhileLoop
