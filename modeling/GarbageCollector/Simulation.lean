import GarbageCollector.Transition

/-!
# Simulation of one step function by another

A concrete step is matched by an abstract step or, when it changes nothing that the relation
sees, by none. The relation may rest on an invariant of the concrete runs. Where the abstract
actions are read off the concrete steps, the abstract system takes exactly the steps shown.
-/

namespace Transition

universe u v

variable {C A : Type u} {X Y : Type v}

structure Simulates (initC : C → Prop) (stepC : C → X → Option C) (okC : C → X → Prop)
    (initA : A → Prop) (stepA : A → Y → Option A) (okA : A → Y → Prop)
    (I : C → Prop) (R : C → A → Prop) : Prop where
  start : ∀ c, initC c → ∃ a, initA a ∧ R c a
  step : ∀ c x c' a, I c → R c a → okC c x → stepC c x = some c' →
    R c' a ∨ ∃ y a', okA a y ∧ stepA a y = some a' ∧ R c' a'

variable {initC : C → Prop} {stepC : C → X → Option C} {okC : C → X → Prop} {initA : A → Prop}
  {stepA : A → Y → Option A} {okA : A → Y → Prop} {I : C → Prop} {R : C → A → Prop}

/-- Every concrete state that is reached stands for an abstract one that is. -/
theorem Simulates.reachable (h : Simulates initC stepC okC initA stepA okA I R)
    (inv : ∀ c, Reachable initC stepC okC c → I c) {c : C} (hc : Reachable initC stepC okC c) :
    ∃ a, Reachable initA stepA okA a ∧ R c a := by
  induction hc with
  | init hi =>
    obtain ⟨a, ha, hr⟩ := h.start _ hi
    exact ⟨a, .init ha, hr⟩
  | step x hc hok hs ih =>
    obtain ⟨a, ha, hr⟩ := ih
    rcases h.step _ x _ a (inv _ hc) hr hok hs with hsame | ⟨y, a', hoka, hsa, hr'⟩
    · exact ⟨a, ha, hsame⟩
    · exact ⟨a', .step y ha hoka hsa, hr'⟩

/-- A guarded run from `c`, with the abstract actions that its steps show. -/
inductive Shows (step : C → X → Option C) (ok : C → X → Prop) (shown : C → X → C → List Y) (c : C) :
    List Y → C → Prop where
  | refl : Shows step ok shown c [] c
  | tail {ys c' c''} (x : X) (h : Shows step ok shown c ys c') (hok : ok c' x)
      (hs : step c' x = some c'') : Shows step ok shown c (ys ++ shown c' x c'') c''

variable {shown : C → X → C → List Y} {c c' : C} {ys : List Y}

theorem Shows.reachable (hc : Reachable initC stepC okC c) (h : Shows stepC okC shown c ys c') :
    Reachable initC stepC okC c' := by
  induction h with
  | refl => exact hc
  | tail x _ hok hs ih => exact .step x ih hok hs

theorem Shows.mono {okC' : C → X → Prop} (weaker : ∀ c x, okC c x → okC' c x)
    (h : Shows stepC okC shown c ys c') : Shows stepC okC' shown c ys c' := by
  induction h with
  | refl => exact .refl
  | tail x _ hok hs ih => exact .tail x ih (weaker _ _ hok) hs

theorem exists_shows [∀ c x, Decidable (okC c x)] (shown : C → X → C → List Y) {as : List X}
    (hrun : run stepC okC c as = some c') : ∃ ys, Shows stepC okC shown c ys c' := by
  have extend : ∀ (as : List X) (d : C) (ys : List Y), Shows stepC okC shown c ys d →
      run stepC okC d as = some c' → ∃ ys, Shows stepC okC shown c ys c' := by
    intro as
    induction as with
    | nil =>
      intro d ys hd hr
      cases hr
      exact ⟨ys, hd⟩
    | cons a as ih =>
      intro d ys hd hr
      simp only [run, Option.ite_none_right_eq_some, Option.bind_eq_some_iff] at hr
      obtain ⟨hok, e, hs, hr⟩ := hr
      exact ih e _ (.tail a hd hok hs) hr
  exact extend as c [] .refl hrun

/-- A replayed run that ends in a state with property `p`. -/
theorem shows_of_run (step : C → X → Option C) (ok : C → X → Prop) [∀ c x, Decidable (ok c x)]
    (shown : C → X → C → List Y) (as : List X) (p : C → Prop) [DecidablePred p]
    (hr : (run step ok c as).any (fun c' => decide (p c')) = true) :
    ∃ ys c', Shows step ok shown c ys c' ∧ p c' := by
  cases hrun : run step ok c as with
  | none => simp [hrun] at hr
  | some c' =>
    obtain ⟨ys, hys⟩ := exists_shows shown hrun
    exact ⟨ys, c', hys, by simpa [hrun] using hr⟩

theorem run_anyStep_append {a a' : A} {ys zs : List Y}
    (h : run stepA anyStep a ys = some a') :
    run stepA anyStep a (ys ++ zs) = run stepA anyStep a' zs := by
  induction ys generalizing a with
  | nil =>
    cases h
    rfl
  | cons y ys ih =>
    simp only [run, Option.ite_none_right_eq_some, Option.bind_eq_some_iff] at h
    obtain ⟨-, b, hs, h⟩ := h
    simp only [List.cons_append, run, hs, Option.bind_some, ih h]
    exact if_pos trivial

theorem run_one (a : A) (y : Y) : run stepA anyStep a [y] = stepA a y := by
  rw [run, if_pos (show anyStep a y from trivial)]
  exact Option.bind_fun_some (stepA a y)

/-- When every step is matched by the actions that it shows, so is every run. -/
theorem Shows.matched (inv : ∀ c, Reachable initC stepC okC c → I c)
    (step : ∀ c x c' a, I c → I c' → R c a → okC c x → stepC c x = some c' →
      ∃ a', run stepA anyStep a (shown c x c') = some a' ∧ R c' a')
    (hc : Reachable initC stepC okC c) {a : A} (hr : R c a) (h : Shows stepC okC shown c ys c') :
    ∃ a', run stepA anyStep a ys = some a' ∧ R c' a' := by
  induction h with
  | refl => exact ⟨a, rfl, hr⟩
  | @tail ys d e x h hok hs ih =>
    obtain ⟨b, hb, hrb⟩ := ih
    have hd := h.reachable hc
    obtain ⟨a', ha', hr'⟩ := step d x e b (inv d hd) (inv e (.step x hd hok hs)) hrb hok hs
    exact ⟨a', (run_anyStep_append hb).trans ha', hr'⟩

end Transition
