import Mathlib.Data.List.Nodup
import Mathlib.Data.List.Basic
import Mathlib.Logic.Function.Basic

/-!
# Singly linked lists in a store of links

Nodes live in a store that maps each of them to its successor. `IsList next head l` says
that following the links from `head` runs through `l` and ends.
-/

namespace LinkedList

universe u

variable {A : Type u}

def IsList (next : A → Option A) : Option A → List A → Prop
  | head, [] => head = none
  | head, a :: l => head = some a ∧ IsList next (next a) l

/-- `a` is met on the way from `head` to the end of a finite list. -/
def OnList (next : A → Option A) (head : Option A) (a : A) : Prop :=
  ∃ l, IsList next head l ∧ a ∈ l

namespace IsList

variable {next next' : A → Option A} {head : Option A} {l l' : List A} {a b : A}

@[simp] theorem nil_iff : IsList next head [] ↔ head = none := Iff.rfl

@[simp] theorem cons_iff : IsList next head (a :: l) ↔ head = some a ∧ IsList next (next a) l :=
  Iff.rfl

theorem unique (h : IsList next head l) (h' : IsList next head l') : l = l' := by
  induction l generalizing head l' with
  | nil =>
    cases l' with
    | nil => rfl
    | cons b l' =>
      rw [nil_iff.mp h] at h'
      cases h'.1
  | cons a l ih =>
    cases l' with
    | nil =>
      rw [nil_iff.mp h'] at h
      cases h.1
    | cons b l' =>
      have hab : a = b := Option.some.inj (h.1.symm.trans h'.1)
      subst hab
      rw [ih h.2 h'.2]

/-- The links met from a member on run through a suffix of the list. -/
theorem from_mem (h : IsList next head l) (ha : a ∈ l) :
    ∃ l₂, IsList next (next a) l₂ ∧ l₂.length < l.length := by
  induction l generalizing head with
  | nil => cases ha
  | cons b l ih =>
    rcases List.mem_cons.mp ha with hab | ha
    · subst hab
      exact ⟨l, h.2, by simp⟩
    · obtain ⟨l₂, hl₂, hlt⟩ := ih h.2 ha
      exact ⟨l₂, hl₂, by simp; omega⟩

theorem nodup (h : IsList next head l) : l.Nodup := by
  induction l generalizing head with
  | nil => exact List.nodup_nil
  | cons a l ih =>
    rw [List.nodup_cons]
    refine ⟨fun ha => ?_, ih h.2⟩
    obtain ⟨l₂, hl₂, hlt⟩ := from_mem h.2 ha
    rw [h.2.unique hl₂] at hlt
    omega

theorem congr (h : IsList next head l) (same : ∀ a, a ∈ l → next' a = next a) :
    IsList next' head l := by
  induction l generalizing head with
  | nil => exact h
  | cons a l ih =>
    refine ⟨h.1, ?_⟩
    rw [same a (by simp)]
    exact ih h.2 fun b hb => same b (by simp [hb])

theorem onList_iff (h : IsList next head l) : OnList next head a ↔ a ∈ l := by
  constructor
  · rintro ⟨l', hl', ha⟩
    rwa [h.unique hl']
  · intro ha
    exact ⟨l, h, ha⟩

theorem next_mem (h : IsList next head l) (ha : a ∈ l) (hb : next a = some b) : b ∈ l := by
  induction l generalizing head with
  | nil => cases ha
  | cons c l ih =>
    rcases List.mem_cons.mp ha with hac | ha
    · subst hac
      cases l with
      | nil => rw [nil_iff.mp h.2] at hb; cases hb
      | cons d l =>
        rw [h.2.1] at hb
        simp [Option.some.inj hb]
    · exact List.mem_cons_of_mem _ (ih h.2 ha)

variable [DecidableEq A]

theorem update_of_not_mem (h : IsList next head l) (ha : a ∉ l) (x : Option A) :
    IsList (Function.update next a x) head l :=
  h.congr fun b hb => Function.update_of_ne (fun he : b = a => ha (he ▸ hb)) _ _

theorem push (h : IsList next head l) (ha : a ∉ l) :
    IsList (Function.update next a head) (some a) (a :: l) := by
  refine ⟨rfl, ?_⟩
  rw [Function.update_self]
  exact h.update_of_not_mem ha head

end IsList

/-- The list from `head` ends and its members are the nodes with property `P`. -/
def ListOf (next : A → Option A) (head : Option A) (P : A → Prop) : Prop :=
  ∃ l, IsList next head l ∧ ∀ a, a ∈ l ↔ P a

namespace ListOf

variable {next next' : A → Option A} {head : Option A} {P Q : A → Prop} {a b : A}

theorem onList_iff (h : ListOf next head P) : OnList next head a ↔ P a := by
  obtain ⟨l, hl, hmem⟩ := h
  rw [hl.onList_iff, hmem]

theorem congr (h : ListOf next head P) (same : ∀ a, P a ↔ Q a) : ListOf next head Q := by
  obtain ⟨l, hl, hmem⟩ := h
  exact ⟨l, hl, fun a => (hmem a).trans (same a)⟩

theorem head_mem (h : ListOf next (some a) P) : P a := by
  obtain ⟨l, hl, hmem⟩ := h
  cases l with
  | nil => cases hl
  | cons b l =>
    rw [Option.some.inj hl.1]
    exact (hmem b).mp (by simp)

/-- Taking the first node off leaves the list of the others. -/
theorem pop (h : ListOf next (some a) P) : ListOf next (next a) fun b => P b ∧ b ≠ a := by
  obtain ⟨l, hl, hmem⟩ := h
  cases l with
  | nil => cases hl
  | cons c l =>
    have hac : a = c := Option.some.inj hl.1
    subst hac
    have hnot : a ∉ l := (List.nodup_cons.mp hl.nodup).1
    refine ⟨l, hl.2, fun b => ?_⟩
    change b ∈ l ↔ P b ∧ b ≠ a
    rw [← hmem b]
    by_cases hb : b = a
    · simp [hb, hnot]
    · simp [hb]

theorem next_mem (h : ListOf next head P) (ha : P a) (hb : next a = some b) : P b := by
  obtain ⟨l, hl, hmem⟩ := h
  exact (hmem b).mp (hl.next_mem ((hmem a).mpr ha) hb)

theorem nil : ListOf next none fun _ => False :=
  ⟨[], rfl, by simp⟩

variable [DecidableEq A]

theorem update_of_not (h : ListOf next head P) (ha : ¬ P a) (x : Option A) :
    ListOf (Function.update next a x) head P := by
  obtain ⟨l, hl, hmem⟩ := h
  exact ⟨l, hl.update_of_not_mem (fun hin => ha ((hmem a).mp hin)) x, hmem⟩

end ListOf

end LinkedList
