import Mathlib.Algebra.Group.Nat.Defs
import Mathlib.Data.List.Basic

/-!
# Reading text from the left

Literals, longest runs of characters, decimal numbers and lines: the parts of a format in which
every field is told from its successor by one character.
-/

namespace TextScan

abbrev Text := List Char

/-- What follows a literal. -/
def literal : Text → Text → Option Text
  | [], cs => some cs
  | _ :: _, [] => none
  | l :: ls, c :: cs => if l = c then literal ls cs else none

/-- The longest run of characters that satisfy `p`, if there is one at all, and what follows. -/
def run (p : Char → Bool) (cs : Text) : Option (Text × Text) :=
  if cs.takeWhile p = [] then none else some (cs.takeWhile p, cs.dropWhile p)

theorem literal_append (l cs : Text) : literal l (l ++ cs) = some cs := by
  induction l with
  | nil => rfl
  | cons c l ih => simpa [literal] using ih

theorem run_append {p : Char → Bool} {cs rest : Text} (hne : cs ≠ []) (hall : ∀ c ∈ cs, p c = true)
    (hstop : ∀ c ∈ rest.head?, p c = false) : run p (cs ++ rest) = some (cs, rest) := by
  have htake : rest.takeWhile p = [] := by
    cases rest with
    | nil => rfl
    | cons c rest => simp [hstop c rfl]
  have hdrop : rest.dropWhile p = rest := by
    cases rest with
    | nil => rfl
    | cons c rest => simp [hstop c rfl]
  simp [run, List.takeWhile_append_of_pos hall, List.dropWhile_append_of_pos hall, htake, hdrop,
    hne]

def decimal (n : Nat) : Text := Nat.toDigits 10 n

def number (cs : Text) : Nat := Nat.ofDigitChars 10 cs 0

theorem number_decimal (n : Nat) : number (decimal n) = n :=
  Nat.ofDigitChars_toDigits (by decide) (by decide)

theorem decimal_ne_nil (n : Nat) : decimal n ≠ [] :=
  Nat.toDigits_ne_nil

theorem isDigit_of_mem_decimal {n : Nat} {c : Char} (h : c ∈ decimal n) : c.isDigit = true :=
  Nat.isDigit_of_mem_toDigits (by decide) (by decide) h

theorem length_decimal_le {n k : Nat} (hk : 0 < k) (h : n < 10 ^ k) : (decimal n).length ≤ k :=
  (Nat.length_toDigits_le_iff (by decide) hk).mpr h

theorem decimal_injective : Function.Injective decimal := by
  intro m n h
  rw [← number_decimal m, h, number_decimal n]

/-- A number is told from what follows by the first character that is no digit. -/
theorem run_decimal (n : Nat) {rest : Text} (hstop : ∀ c ∈ rest.head?, c.isDigit = false) :
    run Char.isDigit (decimal n ++ rest) = some (decimal n, rest) :=
  run_append (decimal_ne_nil n) (fun _ hc => isDigit_of_mem_decimal hc) hstop

/-- The lines of a text without their ends; `cur` is what has been read of the line so far. -/
def linesFrom (cur : Text) : Text → List Text
  | [] => if cur = [] then [] else [cur]
  | c :: cs => if c = '\n' then cur :: linesFrom [] cs else linesFrom (cur ++ [c]) cs

def lines (cs : Text) : List Text := linesFrom [] cs

theorem linesFrom_append {l : Text} (h : '\n' ∉ l) (cur rest : Text) :
    linesFrom cur (l ++ '\n' :: rest) = (cur ++ l) :: linesFrom [] rest := by
  induction l generalizing cur with
  | nil => simp [linesFrom]
  | cons c l ih =>
    rw [List.mem_cons, not_or] at h
    rw [List.cons_append, linesFrom, if_neg (Ne.symm h.1), ih h.2]
    simp

theorem lines_append {l : Text} (h : '\n' ∉ l) (rest : Text) :
    lines (l ++ '\n' :: rest) = l :: lines rest :=
  linesFrom_append h [] rest

/-- Every line with its end. -/
def unlines (ls : List Text) : Text := ls.flatMap (· ++ ['\n'])

@[simp] theorem unlines_nil : unlines [] = [] := rfl

@[simp] theorem unlines_cons (l : Text) (ls : List Text) :
    unlines (l :: ls) = l ++ '\n' :: unlines ls := by
  simp [unlines]

theorem unlines_append (ls ls' : List Text) : unlines (ls ++ ls') = unlines ls ++ unlines ls' :=
  List.flatMap_append

section Fold

variable {S : Type*} {read : S → Text → S} {s s' s'' : S} {text text' : Text}

/-- Reading line by line, the text takes the reader from `s` to `s'`, whatever comes after it. -/
def Reads (read : S → Text → S) (s : S) (text : Text) (s' : S) : Prop :=
  ∀ rest, (lines (text ++ rest)).foldl read s = (lines rest).foldl read s'

theorem Reads.nil : Reads read s [] s := fun _ => rfl

theorem Reads.append (h : Reads read s text s') (h' : Reads read s' text' s'') :
    Reads read s (text ++ text') s'' := by
  intro rest
  rw [List.append_assoc, h, h']

theorem Reads.unlines {ls : List Text} (h : ∀ l ∈ ls, '\n' ∉ l) :
    Reads read s (unlines ls) (ls.foldl read s) := by
  induction ls generalizing s with
  | nil => exact Reads.nil
  | cons l ls ih =>
    intro rest
    rw [unlines_cons, List.append_assoc, List.cons_append, lines_append (h l List.mem_cons_self)]
    exact ih (fun l' hl' => h l' (List.mem_cons_of_mem l hl')) rest

theorem Reads.whole (h : Reads read s text s') : (lines text).foldl read s = s' := by
  have hrest := h []
  rwa [List.append_nil] at hrest

end Fold

end TextScan
