import Mathlib.Logic.Basic
import Mathlib.Tactic.TypeStar

/-!
# Runs of a step function

A system is a step function that an action either enables or refuses. The guard of
`Reachable` restricts the steps that a run may take by a condition on the state before
the step, so that one definition serves for all runs and for the runs that keep clear of
a given branch.
-/

namespace Transition

universe u v

variable {S : Type u} {A : Type v}

/-- The guard of an unrestricted run. -/
def anyStep : S → A → Prop := fun _ _ => True

instance (s : S) (a : A) : Decidable (anyStep s a) := isTrue trivial

/-- Replay a list of actions; a refused or forbidden action stops the run. -/
def run (step : S → A → Option S) (ok : S → A → Prop) [∀ s a, Decidable (ok s a)] :
    S → List A → Option S
  | s, [] => some s
  | s, a :: as => if ok s a then (step s a).bind fun s' => run step ok s' as else none

inductive Reachable (init : S → Prop) (step : S → A → Option S) (ok : S → A → Prop) :
    S → Prop where
  | init {s} (h : init s) : Reachable init step ok s
  | step {s s'} (a : A) (h : Reachable init step ok s) (hok : ok s a)
      (hs : step s a = some s') : Reachable init step ok s'

variable {init : S → Prop} {step : S → A → Option S} {ok : S → A → Prop}

/-- What holds initially and is preserved by every guarded step holds in every state
of a guarded run. -/
theorem Reachable.invariant {P : S → Prop} (start : ∀ s, init s → P s)
    (preserve : ∀ s a s', P s → ok s a → step s a = some s' → P s')
    {s : S} (h : Reachable init step ok s) : P s := by
  induction h with
  | init h => exact start _ h
  | step a _ hok hs ih => exact preserve _ a _ ih hok hs

/-- The same rule when an invariant of all runs is already at hand. -/
theorem Reachable.invariant_of {I P : S → Prop}
    (base : ∀ s, Reachable init step ok s → I s) (start : ∀ s, init s → P s)
    (preserve : ∀ s a s', I s → P s → ok s a → step s a = some s' → P s')
    {s : S} (h : Reachable init step ok s) : P s := by
  induction h with
  | init h => exact start _ h
  | step a hr hok hs ih => exact preserve _ a _ (base _ hr) ih hok hs

theorem Reachable.mono {ok' : S → A → Prop} (weaker : ∀ s a, ok s a → ok' s a) {s : S}
    (h : Reachable init step ok s) : Reachable init step ok' s := by
  induction h with
  | init h => exact .init h
  | step a _ hok hs ih => exact .step a ih (weaker _ a hok) hs

theorem Reachable.unguarded {s : S} (h : Reachable init step ok s) :
    Reachable init step anyStep s :=
  h.mono fun _ _ _ => trivial

theorem Reachable.run [∀ s a, Decidable (ok s a)] {s s' : S} {as : List A}
    (h : Reachable init step ok s) (hr : Transition.run step ok s as = some s') :
    Reachable init step ok s' := by
  induction as generalizing s with
  | nil =>
    have he : s = s' := Option.some.inj hr
    exact he ▸ h
  | cons a as ih =>
    simp only [Transition.run, Option.ite_none_right_eq_some] at hr
    obtain ⟨hok, hr⟩ := hr
    cases hs : step s a with
    | none => simp [hs] at hr
    | some t => exact ih (.step a h hok hs) (by simpa [hs] using hr)

/-- A trace replayed from a reachable state and ending in a state with property `p`. -/
theorem Reachable.exists_of_run [∀ s a, Decidable (ok s a)] {s : S}
    (h : Reachable init step ok s) (as : List A) (p : S → Prop) [DecidablePred p]
    (hr : (Transition.run step ok s as).any (fun s' => decide (p s')) = true) :
    ∃ s', Reachable init step ok s' ∧ p s' := by
  cases hs : Transition.run step ok s as with
  | none => simp [hs] at hr
  | some s' => exact ⟨s', h.run hs, by simpa [hs] using hr⟩

/-- A replayed trace ending in a state with property `p` gives a reachable one. -/
theorem reachable_of_run (start : S) (as : List A) (p : S → Prop) [DecidablePred p]
    (step : S → A → Option S) (ok : S → A → Prop) [∀ s a, Decidable (ok s a)]
    (hr : (Transition.run step ok start as).any (fun s' => decide (p s')) = true) :
    ∃ s', Reachable (· = start) step ok s' ∧ p s' := by
  have h : Reachable (· = start) step ok start := .init rfl
  exact h.exists_of_run as p hr

end Transition
