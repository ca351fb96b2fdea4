import GarbageCollector.Bytes

/-!
# Setting and copying memory

`gc_memset` and `gc_memcpy` work on 16 bytes at a time and then on single bytes, in the order of
the addresses. A copy is what the source held before if the destination does not start inside the
source.
-/

namespace GarbageCollector

open Bytes

/-- The store of one chunk of 16 bytes. -/
def setChunk (m : Mem) (dest : Nat) (fill : BitVec 8) : Mem :=
  fun x => if dest ≤ x ∧ x < dest + 16 then fill else m x

/-- The first loop of `gc_memset`, from its position on. -/
def setChunks (m : Mem) (dest : Nat) (fill : BitVec 8) : Nat → Mem
  | 0 => m
  | k + 1 => setChunks (setChunk m dest fill) (dest + 16) fill k

/-- The second loop of `gc_memset`, from its position on. -/
def setEach (m : Mem) (dest : Nat) (fill : BitVec 8) : Nat → Mem
  | 0 => m
  | k + 1 => setEach (store8 m dest fill) (dest + 1) fill k

def gcMemset (m : Mem) (dest : Nat) (value : Int) (count : Nat) : Mem :=
  let fill := BitVec.ofInt 8 value
  let i := 16 * (count / 16)
  setEach (setChunks m dest fill (count / 16)) (dest + i) fill (count - i)

/-- The load and the store of one chunk of 16 bytes. -/
def copyChunk (m : Mem) (dest src : Nat) : Mem :=
  fun x => if dest ≤ x ∧ x < dest + 16 then m (src + (x - dest)) else m x

/-- The first loop of `gc_memcpy`, from its position on. -/
def copyChunks (m : Mem) (dest src : Nat) : Nat → Mem
  | 0 => m
  | k + 1 => copyChunks (copyChunk m dest src) (dest + 16) (src + 16) k

/-- The second loop of `gc_memcpy`, from its position on. -/
def copyEach (m : Mem) (dest src : Nat) : Nat → Mem
  | 0 => m
  | k + 1 => copyEach (store8 m dest (m src)) (dest + 1) (src + 1) k

def gcMemcpy (m : Mem) (dest src count : Nat) : Mem :=
  let i := 16 * (count / 16)
  copyEach (copyChunks m dest src (count / 16)) (dest + i) (src + i) (count - i)

section Fills

variable {m : Mem} {dest count k x : Nat} {fill : BitVec 8}

theorem setChunks_apply :
    setChunks m dest fill k x = if dest ≤ x ∧ x < dest + 16 * k then fill else m x := by
  induction k generalizing m dest with
  | zero => simp [setChunks]
  | succ k ih =>
    rw [setChunks, ih, setChunk]
    by_cases hrest : dest + 16 ≤ x ∧ x < dest + 16 + 16 * k
    · rw [if_pos hrest, if_pos (by omega)]
    · rw [if_neg hrest]
      by_cases hhead : dest ≤ x ∧ x < dest + 16
      · rw [if_pos hhead, if_pos (by omega)]
      · rw [if_neg hhead, if_neg (by omega)]

theorem setEach_apply :
    setEach m dest fill k x = if dest ≤ x ∧ x < dest + k then fill else m x := by
  induction k generalizing m dest with
  | zero => simp [setEach]
  | succ k ih =>
    rw [setEach, ih]
    by_cases hrest : dest + 1 ≤ x ∧ x < dest + 1 + k
    · rw [if_pos hrest, if_pos (by omega)]
    · rw [if_neg hrest]
      by_cases hhead : x = dest
      · rw [hhead, if_pos (by omega), store8, Function.update_self]
      · rw [if_neg (by omega), store8_of_ne hhead]

/-- The chunks and the single bytes together cover the range. -/
theorem gcMemset_apply (m : Mem) (dest : Nat) (value : Int) (count x : Nat) :
    gcMemset m dest value count x =
      if dest ≤ x ∧ x < dest + count then BitVec.ofInt 8 value else m x := by
  have hdiv := Nat.div_mul_le_self count 16
  rw [gcMemset, setEach_apply, setChunks_apply]
  by_cases htail : dest + 16 * (count / 16) ≤ x ∧ x < dest + count
  · rw [if_pos (by omega), if_pos (by omega)]
  · rw [if_neg (by omega)]
    by_cases hhead : dest ≤ x ∧ x < dest + 16 * (count / 16)
    · rw [if_pos hhead, if_pos (by omega)]
    · rw [if_neg hhead, if_neg (by omega)]

end Fills

section Copies

variable {m : Mem} {dest src count k x : Nat}

theorem copyChunks_apply (h : dest ≤ src ∨ src + 16 * k ≤ dest) :
    copyChunks m dest src k x =
      if dest ≤ x ∧ x < dest + 16 * k then m (src + (x - dest)) else m x := by
  induction k generalizing m dest src with
  | zero => simp [copyChunks]
  | succ k ih =>
    rw [copyChunks, ih (by omega)]
    by_cases hrest : dest + 16 ≤ x ∧ x < dest + 16 + 16 * k
    · have hread : src + 16 + (x - (dest + 16)) = src + (x - dest) := by omega
      rw [if_pos hrest, if_pos (by omega), hread, copyChunk, if_neg (by omega)]
    · rw [if_neg hrest, copyChunk]
      by_cases hhead : dest ≤ x ∧ x < dest + 16
      · rw [if_pos hhead, if_pos (by omega)]
      · rw [if_neg hhead, if_neg (by omega)]

theorem copyEach_apply (h : dest ≤ src ∨ src + k ≤ dest) :
    copyEach m dest src k x = if dest ≤ x ∧ x < dest + k then m (src + (x - dest)) else m x := by
  induction k generalizing m dest src with
  | zero => simp [copyEach]
  | succ k ih =>
    rw [copyEach, ih (by omega)]
    by_cases hrest : dest + 1 ≤ x ∧ x < dest + 1 + k
    · have hread : src + 1 + (x - (dest + 1)) = src + (x - dest) := by omega
      rw [if_pos hrest, if_pos (by omega), hread, store8_of_ne (by omega)]
    · rw [if_neg hrest]
      by_cases hhead : x = dest
      · rw [hhead, if_pos (by omega), store8, Function.update_self, Nat.sub_self, Nat.add_zero]
      · rw [if_neg (by omega), store8_of_ne hhead]

theorem gcMemcpy_apply (h : dest ≤ src ∨ src + count ≤ dest) :
    gcMemcpy m dest src count x =
      if dest ≤ x ∧ x < dest + count then m (src + (x - dest)) else m x := by
  have hdiv := Nat.div_mul_le_self count 16
  rw [gcMemcpy, copyEach_apply (by omega)]
  by_cases htail : dest + 16 * (count / 16) ≤ x ∧ x < dest + count
  · have hread : src + 16 * (count / 16) + (x - (dest + 16 * (count / 16))) = src + (x - dest) := by
      omega
    rw [if_pos (by omega), if_pos (by omega), hread, copyChunks_apply (by omega),
      if_neg (by omega)]
  · rw [if_neg (by omega), copyChunks_apply (by omega)]
    by_cases hhead : dest ≤ x ∧ x < dest + 16 * (count / 16)
    · rw [if_pos hhead, if_pos (by omega)]
    · rw [if_neg hhead, if_neg (by omega)]

end Copies

end GarbageCollector
