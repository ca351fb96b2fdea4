import GarbageCollector.BoundedRuns

/-!
# Two systems side by side

A party with a role in both systems ties their steps together: `may` says, by the states of both,
when a step of one of them is possible. What holds of the runs of one system holds of its part of
every run of the pair.
-/

namespace Transition

universe u v w x

variable {S : Type u} {A : Type v} {T : Type w} {B : Type x}

/-- The actions of the pair are those of the two systems. -/
def pairStep (first : S → A → Option S) (second : T → B → Option T) (may : S × T → A ⊕ B → Bool)
    (s : S × T) : A ⊕ B → Option (S × T)
  | .inl a => if may s (.inl a) = true then (first s.1 a).map fun t => (t, s.2) else none
  | .inr b => if may s (.inr b) = true then (second s.2 b).map fun t => (s.1, t) else none

/-- A guard for each of the two systems. -/
def both (ok : S → A → Prop) (ok' : T → B → Prop) (s : S × T) : A ⊕ B → Prop
  | .inl a => ok s.1 a
  | .inr b => ok' s.2 b

instance (ok : S → A → Prop) (ok' : T → B → Prop) [∀ s a, Decidable (ok s a)]
    [∀ s b, Decidable (ok' s b)] (s : S × T) (c : A ⊕ B) : Decidable (both ok ok' s c) :=
  match c with
  | .inl a => inferInstanceAs (Decidable (ok s.1 a))
  | .inr b => inferInstanceAs (Decidable (ok' s.2 b))

variable {first : S → A → Option S} {second : T → B → Option T} {may : S × T → A ⊕ B → Bool}
  {ok : S → A → Prop} {ok' : T → B → Prop} {s s' : S × T}

theorem pairStep_inl {a : A} : pairStep first second may s (.inl a) = some s' ↔
    may s (.inl a) = true ∧ ∃ t, first s.1 a = some t ∧ (t, s.2) = s' := by
  simp [pairStep]

theorem pairStep_inr {b : B} : pairStep first second may s (.inr b) = some s' ↔
    may s (.inr b) = true ∧ ∃ t, second s.2 b = some t ∧ (s.1, t) = s' := by
  simp [pairStep]

theorem pairStep_inl_none {a : A} (h : pairStep first second may s (.inl a) = none)
    (hmay : may s (.inl a) = true) : first s.1 a = none := by
  simpa [pairStep, hmay] using h

theorem pairStep_inr_none {b : B} (h : pairStep first second may s (.inr b) = none)
    (hmay : may s (.inr b) = true) : second s.2 b = none := by
  simpa [pairStep, hmay] using h

/-- The first half of a run is a run of the first system. -/
theorem Reachable.fst {init : S} {init' : T}
    (h : Reachable (· = (init, init')) (pairStep first second may) (both ok ok') s) :
    Reachable (· = init) first ok s.1 := by
  induction h with
  | init h => exact .init (by rw [h])
  | step c _ hok hs ih =>
    cases c with
    | inl a =>
      obtain ⟨-, t, ht, rfl⟩ := pairStep_inl.mp hs
      exact .step a ih hok ht
    | inr b =>
      obtain ⟨-, t, -, rfl⟩ := pairStep_inr.mp hs
      exact ih

theorem Reachable.snd {init : S} {init' : T}
    (h : Reachable (· = (init, init')) (pairStep first second may) (both ok ok') s) :
    Reachable (· = init') second ok' s.2 := by
  induction h with
  | init h => exact .init (by rw [h])
  | step c _ hok hs ih =>
    cases c with
    | inl a =>
      obtain ⟨-, t, -, rfl⟩ := pairStep_inl.mp hs
      exact ih
    | inr b =>
      obtain ⟨-, t, ht, rfl⟩ := pairStep_inr.mp hs
      exact .step b ih hok ht

end Transition
