import Mathlib.Data.Nat.Basic
import Mathlib.Logic.Function.Basic
import Mathlib.Tactic.Ring

/-!
# Byte memory

A memory maps every address to a byte. Words are little-endian numbers read from and
written to consecutive bytes at any address, aligned or not.
-/

namespace Bytes

abbrev Mem := Nat → BitVec 8

/-- The number stored in the `k` bytes from `a`. -/
def loadBytes (m : Mem) : Nat → Nat → Nat
  | _, 0 => 0
  | a, k + 1 => (m a).toNat + 256 * loadBytes m (a + 1) k

def storeBytes (m : Mem) (a v k : Nat) : Mem :=
  fun x => if a ≤ x ∧ x < a + k then BitVec.ofNat 8 (v / 256 ^ (x - a)) else m x

def load64 (m : Mem) (a : Nat) : Nat := loadBytes m a 8

def store64 (m : Mem) (a v : Nat) : Mem := storeBytes m a v 8

def store8 (m : Mem) (a : Nat) (v : BitVec 8) : Mem := Function.update m a v

theorem loadBytes_congr {m m' : Mem} {a k : Nat} (h : ∀ x, a ≤ x → x < a + k → m x = m' x) :
    loadBytes m a k = loadBytes m' a k := by
  induction k generalizing a with
  | zero => rfl
  | succ k ih =>
    have htail : loadBytes m (a + 1) k = loadBytes m' (a + 1) k :=
      ih fun x hx hlt => h x (by omega) (by omega)
    simp only [loadBytes, htail, h a le_rfl (by omega)]

theorem loadBytes_eq_zero {m : Mem} {a k : Nat} :
    loadBytes m a k = 0 ↔ ∀ i, i < k → m (a + i) = 0#8 := by
  induction k generalizing a with
  | zero => simp [loadBytes]
  | succ k ih =>
    have hbyte : (m a).toNat = 0 ↔ m a = 0#8 := by
      rw [← BitVec.toNat_inj, BitVec.toNat_ofNat, Nat.zero_mod]
    have hsum : loadBytes m a (k + 1) = 0 ↔ (m a).toNat = 0 ∧ loadBytes m (a + 1) k = 0 := by
      simp only [loadBytes]
      omega
    rw [hsum, hbyte, ih]
    constructor
    · rintro ⟨hzero, hrest⟩ i hi
      rcases i with _ | i
      · exact hzero
      · simpa [Nat.add_assoc, Nat.add_comm 1 i] using hrest i (by omega)
    · intro h
      refine ⟨by simpa using h 0 (by omega), fun i hi => ?_⟩
      simpa [Nat.add_assoc, Nat.add_comm 1 i] using h (i + 1) (by omega)

/-- A memory that holds the digits of `v` from `a` reads back as `v`. -/
theorem loadBytes_of_digits {m : Mem} {a v k : Nat}
    (h : ∀ i, i < k → m (a + i) = BitVec.ofNat 8 (v / 256 ^ i)) :
    loadBytes m a k = v % 256 ^ k := by
  induction k generalizing a v with
  | zero => simp [loadBytes, Nat.mod_one]
  | succ k ih =>
    have hhead : (m a).toNat = v % 256 := by
      have := h 0 (by omega)
      simp_all
    have htail : loadBytes m (a + 1) k = v / 256 % 256 ^ k := by
      apply ih
      intro i hi
      have := h (i + 1) (by omega)
      rw [Nat.div_div_eq_div_mul, ← pow_succ', ← this]
      congr 1
      omega
    rw [loadBytes, hhead, htail, pow_succ', Nat.mod_mul]

theorem storeBytes_of_mem {m : Mem} {a v k x : Nat} (ha : a ≤ x) (hx : x < a + k) :
    storeBytes m a v k x = BitVec.ofNat 8 (v / 256 ^ (x - a)) := by
  simp [storeBytes, ha, hx]

theorem storeBytes_of_not_mem {m : Mem} {a v k x : Nat} (h : x < a ∨ a + k ≤ x) :
    storeBytes m a v k x = m x := by
  simp only [storeBytes]
  rw [if_neg (by omega)]

theorem load64_congr {m m' : Mem} {a : Nat} (h : ∀ x, a ≤ x → x < a + 8 → m x = m' x) :
    load64 m a = load64 m' a :=
  loadBytes_congr h

theorem load64_eq_zero {m : Mem} {a : Nat} :
    load64 m a = 0 ↔ ∀ i, i < 8 → m (a + i) = 0#8 :=
  loadBytes_eq_zero

theorem load64_store64 (m : Mem) (a v : Nat) : load64 (store64 m a v) a = v % 2 ^ 64 := by
  apply loadBytes_of_digits
  intro i hi
  rw [store64, storeBytes_of_mem (by omega) (by omega), Nat.add_sub_cancel_left]

theorem load64_store64_of_lt {m : Mem} {a v : Nat} (h : v < 2 ^ 64) :
    load64 (store64 m a v) a = v := by
  rw [load64_store64, Nat.mod_eq_of_lt h]

theorem store64_of_not_mem {m : Mem} {a v x : Nat} (h : x < a ∨ a + 8 ≤ x) :
    store64 m a v x = m x :=
  storeBytes_of_not_mem h

theorem store8_of_ne {m : Mem} {a x : Nat} {v : BitVec 8} (h : x ≠ a) : store8 m a v x = m x :=
  Function.update_of_ne h _ _

/-- Storing zero words one after another, as a loop over the words of an area does. -/
def zeroWords (m : Mem) (a : Nat) : Nat → Mem
  | 0 => m
  | k + 1 => zeroWords (store64 m a 0) (a + 8) k

theorem zeroWords_apply (m : Mem) (a k x : Nat) :
    zeroWords m a k x = if a ≤ x ∧ x < a + 8 * k then 0#8 else m x := by
  induction k generalizing m a with
  | zero => simp [zeroWords]
  | succ k ih =>
    rw [zeroWords, ih]
    by_cases hmem : a ≤ x ∧ x < a + 8 * (k + 1)
    · rw [if_pos hmem]
      by_cases hhead : x < a + 8
      · rw [if_neg (by omega), store64, storeBytes_of_mem hmem.1 hhead]
        simp
      · rw [if_pos (by omega)]
    · rw [if_neg hmem, if_neg (by omega), store64_of_not_mem (by omega)]

end Bytes
