import GarbageCollector.Marking

/-!
# The array behind the mark stack

`stack.c` with the array that `data` points to, an index `top` that starts at -1 and a capacity that
`resize` doubles, both of them 32-bit numbers. What the stack holds is a list with its head on top.
-/

namespace GarbageCollector.MarkStack

def intMax : Int := 2 ^ 31 - 1

/-- `Stack`; `data` is the allocated array with all its entries. -/
structure ArrayStack where
  data : List Nat
  top : Int
  capacity : Int
  deriving DecidableEq

/-- What `realloc` promises when it succeeds: room for `n` entries, and the old ones in front. -/
def KeepsContents (realloc : List Nat → Nat → List Nat) : Prop :=
  ∀ data n, data.length ≤ n → (realloc data n).length = n ∧ data <+: realloc data n

namespace ArrayStack

/-- `create_stack`; the entries that `malloc` returns are arbitrary. -/
def create (data : List Nat) : ArrayStack := ⟨data, -1, stackInitCapacity⟩

def isEmpty (s : ArrayStack) : Bool := s.top = -1

/-- No result means that the product does not fit into an `int`. -/
def resize (realloc : List Nat → Nat → List Nat) (s : ArrayStack) : Option ArrayStack :=
  if s.capacity * 2 ≤ intMax then
    some { s with
      capacity := s.capacity * 2
      data := realloc s.data (s.capacity * 2).toNat }
  else none

/-- No result means an overflow, or a store beside the entries `0`, ..., `capacity - 1`. -/
def push (realloc : List Nat → Nat → List Nat) (s : ArrayStack) (value : Nat) :
    Option ArrayStack :=
  (if s.top = s.capacity - 1 then s.resize realloc else some s).bind fun s =>
    if 0 ≤ s.top + 1 ∧ s.top + 1 < s.capacity then
      some { s with top := s.top + 1, data := s.data.set (s.top + 1).toNat value }
    else none

/-- No result means a load beside the entries `0`, ..., `capacity - 1`, as from an empty stack. -/
def pop (s : ArrayStack) : Option (Nat × ArrayStack) :=
  if 0 ≤ s.top ∧ s.top < s.capacity then
    s.data[s.top.toNat]?.map fun value => (value, { s with top := s.top - 1 })
  else none

end ArrayStack

/-- The entries up to `top` are `l` from its end to its head. -/
structure Holds (s : ArrayStack) (l : List Nat) : Prop where
  capacity : s.capacity = s.data.length
  top : s.top + 1 = l.length
  data : l.reverse <+: s.data

section Operations

variable {realloc : List Nat → Nat → List Nat} {s : ArrayStack} {data l : List Nat} {value : Nat}

theorem create_holds (h : data.length = stackInitCapacity) : Holds (.create data) [] :=
  ⟨congrArg Nat.cast h.symm, rfl, List.nil_prefix⟩

theorem Holds.length_le (h : Holds s l) : (l.length : Int) ≤ s.capacity := by
  have hle := h.data.length_le
  rw [List.length_reverse] at hle
  rw [h.capacity]
  exact Int.ofNat_le.mpr hle

theorem Holds.isEmpty_iff (h : Holds s l) : s.isEmpty = true ↔ l = [] := by
  have htop := h.top
  rw [ArrayStack.isEmpty, decide_eq_true_eq, ← List.length_eq_zero_iff]
  omega

theorem Holds.resize (h : Holds s l) (hr : KeepsContents realloc)
    (hint : s.capacity * 2 ≤ intMax) :
    ∃ s', s.resize realloc = some s' ∧ Holds s' l ∧ s'.capacity = s.capacity * 2 := by
  have hcap := h.capacity
  have hroom : s.data.length ≤ (s.capacity * 2).toNat := by omega
  obtain ⟨hlen, hpre⟩ := hr s.data (s.capacity * 2).toNat hroom
  refine ⟨_, if_pos hint, ⟨?_, h.top, h.data.trans hpre⟩, rfl⟩
  simp only [hlen]
  omega

/-- With room in the array a push is a store above the entries held. -/
theorem Holds.store (h : Holds s l) (hroom : (l.length : Int) < s.capacity) :
    Holds { s with top := s.top + 1, data := s.data.set (s.top + 1).toNat value } (value :: l) := by
  obtain ⟨rest, hrest⟩ := h.data
  have hcap := h.capacity
  have htop := h.top
  have hindex : (s.top + 1).toNat = l.reverse.length := by
    rw [htop, List.length_reverse, Int.toNat_natCast]
  constructor
  · simp only [List.length_set, hcap]
  · simp only [htop, List.length_cons, Int.natCast_add, Int.natCast_one]
  · cases rest with
    | nil =>
      rw [List.append_nil] at hrest
      rw [hcap, ← hrest, List.length_reverse] at hroom
      exact absurd hroom (lt_irrefl _)
    | cons x rest =>
      refine ⟨rest, ?_⟩
      simp only [hindex, ← hrest, List.reverse_cons, List.append_assoc, List.singleton_append,
        List.set_append_right _ _ le_rfl, Nat.sub_self, List.set_cons_zero]

/-- A push that has to double the capacity does so before it stores. -/
theorem Holds.push (h : Holds s l) (hr : KeepsContents realloc) (hpos : 0 < s.capacity)
    (hint : s.capacity = l.length → s.capacity * 2 ≤ intMax) (value : Nat) :
    ∃ s', s.push realloc value = some s' ∧ Holds s' (value :: l) ∧
      (s'.capacity = s.capacity ∨ s.capacity = l.length ∧ s'.capacity = s.capacity * 2) := by
  have htop := h.top
  have hle := h.length_le
  rw [ArrayStack.push]
  by_cases hfull : s.top = s.capacity - 1
  · obtain ⟨s₁, hrun, h₁, hcap₁⟩ := h.resize hr (hint (by omega))
    have htop₁ := h₁.top
    rw [if_pos hfull, hrun, Option.bind_some, if_pos (by omega)]
    exact ⟨_, rfl, h₁.store (by omega), Or.inr ⟨by omega, hcap₁⟩⟩
  · rw [if_neg hfull, Option.bind_some, if_pos (by omega)]
    exact ⟨_, rfl, h.store (by omega), Or.inl rfl⟩

/-- A pop gives the head of what is held. -/
theorem Holds.pop (h : Holds s (value :: l)) :
    ∃ s', s.pop = some (value, s') ∧ Holds s' l ∧ s'.capacity = s.capacity := by
  obtain ⟨rest, hrest⟩ := h.data
  have htop := h.top
  have hle := h.length_le
  rw [List.length_cons] at htop hle
  have hindex : s.top.toNat = l.reverse.length := by
    rw [List.length_reverse]
    omega
  have hget : s.data[s.top.toNat]? = some value := by
    rw [← hrest, hindex, List.reverse_cons, List.append_assoc, List.getElem?_append_right le_rfl,
      Nat.sub_self]
    rfl
  refine ⟨{ s with top := s.top - 1 }, ?_, ⟨h.capacity, ?_, ?_⟩, rfl⟩
  · rw [ArrayStack.pop, if_pos (by omega), hget]
    rfl
  · simp only
    omega
  · refine ⟨value :: rest, ?_⟩
    rw [← hrest, List.reverse_cons, List.append_assoc]
    rfl

end Operations

end GarbageCollector.MarkStack
