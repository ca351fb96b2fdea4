import GarbageCollector.Transition
import Mathlib.Algebra.BigOperators.Fin
import Mathlib.Algebra.BigOperators.Ring.Finset

/-!
# Runs that come to rest

A measure that every allowed step lowers bounds the length of all runs. When moreover each
state that is not at rest has an allowed step, every run can be continued until it rests.
-/

namespace Transition

universe u v

variable {S : Type u} {A : Type v} {step : S → A → Option S} {ok : S → A → Prop}

/-- No allowed step leads on from here. -/
def Final (step : S → A → Option S) (ok : S → A → Prop) (s : S) : Prop :=
  ∀ a, ok s a → step s a = none

/-- The states of `I` are kept and left behind one measure unit at a time. -/
structure Descends (step : S → A → Option S) (ok : S → A → Prop) (I : S → Prop) (μ : S → Nat) :
    Prop where
  keep : ∀ s a s', I s → ok s a → step s a = some s' → I s'
  lower : ∀ s a s', I s → ok s a → step s a = some s' → μ s' < μ s

variable {I Rest : S → Prop} {μ : S → Nat} [∀ s a, Decidable (ok s a)] {s s' : S}

theorem Descends.run_keep (h : Descends step ok I μ) {as : List A} (hs : I s)
    (hr : run step ok s as = some s') : I s' := by
  induction as generalizing s with
  | nil =>
    cases hr
    exact hs
  | cons a as ih =>
    simp only [run, Option.ite_none_right_eq_some, Option.bind_eq_some_iff] at hr
    obtain ⟨hok, t, hstep, hr⟩ := hr
    exact ih (h.keep s a t hs hok hstep) hr

theorem Descends.length_le (h : Descends step ok I μ) {as : List A} (hs : I s)
    (hr : run step ok s as = some s') : as.length + μ s' ≤ μ s := by
  induction as generalizing s with
  | nil =>
    cases hr
    simp
  | cons a as ih =>
    simp only [run, Option.ite_none_right_eq_some, Option.bind_eq_some_iff] at hr
    obtain ⟨hok, t, hstep, hr⟩ := hr
    have hlt := h.lower s a t hs hok hstep
    have hle := ih (h.keep s a t hs hok hstep) hr
    rw [List.length_cons]
    omega

theorem Descends.exists_final (h : Descends step ok I μ) (hs : I s) :
    ∃ as s', run step ok s as = some s' ∧ Final step ok s' := by
  induction hm : μ s using Nat.strong_induction_on generalizing s with
  | h m ih =>
    by_cases hfinal : Final step ok s
    · exact ⟨[], s, rfl, hfinal⟩
    · simp only [Final, not_forall] at hfinal
      obtain ⟨a, hok, hne⟩ := hfinal
      obtain ⟨t, hstep⟩ := Option.ne_none_iff_exists'.mp hne
      obtain ⟨as, s', hr, hend⟩ :=
        ih (μ t) (hm ▸ h.lower s a t hs hok hstep) (h.keep s a t hs hok hstep) rfl
      refine ⟨a :: as, s', ?_, hend⟩
      rw [run, if_pos hok, hstep, Option.bind_some]
      exact hr

/-- Every run is short, a run that could only go on by steps nobody can count on has come to
rest, and some run does. `sure` are the steps that can be counted on. -/
theorem Descends.rests {sure : S → A → Prop} [∀ s a, Decidable (sure s a)]
    (h : Descends step ok I μ) (stricter : ∀ s a, sure s a → ok s a)
    (progress : ∀ s, I s → Final step sure s → Rest s) (hs : I s) :
    (∀ as s', run step ok s as = some s' →
      as.length ≤ μ s ∧ (Final step sure s' → Rest s')) ∧
    ∃ as s', run step sure s as = some s' ∧ Rest s' := by
  have hsure : Descends step sure I μ :=
    ⟨fun s a s' hi hok => h.keep s a s' hi (stricter s a hok),
      fun s a s' hi hok => h.lower s a s' hi (stricter s a hok)⟩
  constructor
  · intro as s' hr
    exact ⟨le_trans (Nat.le_add_right _ _) (h.length_le hs hr), progress s' (h.run_keep hs hr)⟩
  · obtain ⟨as, s', hr, hfinal⟩ := hsure.exists_final hs
    exact ⟨as, s', hr, progress s' (hsure.run_keep hs hr) hfinal⟩

/-- Weights of a family after one entry has changed. -/
theorem weights_update {ι B : Type*} [Fintype ι] [DecidableEq ι] (w : B → Nat) (f : ι → B) (i : ι)
    (b : B) : ∑ j, w (Function.update f i b j) + w (f i) = ∑ j, w (f j) + w b := by
  have hrest : ∑ j ∈ Finset.univ.erase i, w (Function.update f i b j) =
      ∑ j ∈ Finset.univ.erase i, w (f j) :=
    Finset.sum_congr rfl fun j hj => by rw [Function.update_of_ne (Finset.ne_of_mem_erase hj)]
  rw [← Finset.add_sum_erase _ _ (Finset.mem_univ i),
    ← Finset.add_sum_erase _ _ (Finset.mem_univ i), hrest, Function.update_self]
  omega

end Transition
