import Mathlib.Data.List.Basic

/-!
# Last in, first out

A record of pushes and pops, the last operation first, replayed on an unbounded list.
-/

namespace Lifo

universe u

inductive Op (α : Type u) where
  | push (a : α)
  | pop (a : α)
  deriving DecidableEq, Repr

variable {α : Type u} [DecidableEq α] {a : α} {l : List α} {ops : List (Op α)}

/-- What the list holds in the end; a pop has to give the head of the list. -/
def replay : List (Op α) → Option (List α)
  | [] => some []
  | .push a :: ops => (replay ops).map (a :: ·)
  | .pop a :: ops =>
    (replay ops).bind fun
      | [] => none
      | b :: l => if a = b then some l else none

def pushes : List (Op α) → List α
  | [] => []
  | .push a :: ops => a :: pushes ops
  | .pop _ :: ops => pushes ops

theorem replay_push (h : replay ops = some l) : replay (.push a :: ops) = some (a :: l) := by
  rw [replay, h]
  rfl

theorem replay_pop (h : replay ops = some (a :: l)) : replay (.pop a :: ops) = some l := by
  rw [replay, h]
  exact if_pos rfl

theorem replay_of_pop (h : replay (.pop a :: ops) = some l) : replay ops = some (a :: l) := by
  obtain ⟨l', hl', hpop⟩ := Option.bind_eq_some_iff.mp h
  cases l' with
  | nil => cases hpop
  | cons b l' =>
    obtain ⟨rfl, hrest⟩ := Option.ite_none_right_eq_some.mp hpop
    cases hrest
    exact hl'

/-- What the list holds has been pushed, and is held no more often than it was pushed. -/
theorem replay_sublist (h : replay ops = some l) : l.Sublist (pushes ops) := by
  induction ops generalizing l with
  | nil =>
    cases h
    exact List.Sublist.refl _
  | cons op ops ih =>
    cases op with
    | push a =>
      obtain ⟨l', hl', rfl⟩ := Option.map_eq_some_iff.mp h
      exact (ih hl').cons_cons a
    | pop a =>
      obtain ⟨l', hl', hpop⟩ := Option.bind_eq_some_iff.mp h
      cases l' with
      | nil => cases hpop
      | cons b l' =>
        cases (Option.ite_none_right_eq_some.mp hpop).2
        exact (List.sublist_cons_self b l).trans (ih hl')

end Lifo
