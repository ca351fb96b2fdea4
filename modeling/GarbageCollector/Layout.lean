import GarbageCollector.Bytes
import Mathlib.Tactic.Linarith

/-!
# Layout of the heaps

The constants and address macros of the allocators. `HEAP_SIZE` can be overridden, so it is
a parameter, together with the addresses that the two calls of `mmap` return.
-/

namespace GarbageCollector

open Bytes

/-- `GET_SIZE_WITH_ALIGNMENT`. -/
def getSizeWithAlignment (size : Nat) : Nat :=
  (if size % 8 = 0 then 0 else 8 - size % 8) + size

def blockSize : Nat := 4096

def blockHeaderSize : Nat := 80

def bitmapBytesCount : Nat := 64

def maxObjectSize : Nat := 2008

def objectSizeUpperBound : Nat := maxObjectSize + 1

/-- The heap size and the two mappings, which are disjoint and end below `2 ^ 64`. -/
structure Config where
  heapSize : Nat
  smallStart : Nat
  largeStart : Nat
  heapSize_pos : 0 < heapSize
  blockSize_dvd : blockSize ∣ heapSize
  smallStart_pos : 0 < smallStart
  largeStart_pos : 0 < largeStart
  smallEnd_lt : smallStart + heapSize < 2 ^ 64
  largeEnd_lt : largeStart + heapSize < 2 ^ 64
  heaps_disjoint : smallStart + heapSize ≤ largeStart ∨ largeStart + heapSize ≤ smallStart

def getBitmapAddr (blockAddr : Nat) : Nat := blockAddr + 16

def getObjectSizeAddr (blockAddr : Nat) : Nat := blockAddr + 8

def getSliderPositionAddr (blockAddr : Nat) : Nat := blockAddr + 0

namespace Config

variable (cfg : Config)

def blocksCount : Nat := cfg.heapSize / blockSize

def treenodeCount : Nat := cfg.heapSize / getSizeWithAlignment (maxObjectSize + 1)

/-- `END_ALLOCATOR_HEAP`. -/
def smallEnd : Nat := cfg.smallStart + cfg.heapSize

def largeEnd : Nat := cfg.largeStart + cfg.heapSize

/-- `NODES_LIST[i].block_addr`. -/
def blockAddr (i : Nat) : Nat := cfg.smallStart + blockSize * i

/-- The address of slot `k` of block `i` when it serves objects of size `n`. -/
def slotAddr (i n k : Nat) : Nat :=
  cfg.blockAddr i + blockHeaderSize + k * getSizeWithAlignment n

end Config

/-- How many whole slots for size `n` a block has. -/
def slotCount (n : Nat) : Nat := (blockSize - blockHeaderSize) / getSizeWithAlignment n

theorem le_getSizeWithAlignment (n : Nat) : n ≤ getSizeWithAlignment n := by
  simp only [getSizeWithAlignment]
  omega

theorem getSizeWithAlignment_lt (n : Nat) : getSizeWithAlignment n < n + 8 := by
  simp only [getSizeWithAlignment]
  split <;> omega

theorem getSizeWithAlignment_mod (n : Nat) : getSizeWithAlignment n % 8 = 0 := by
  simp only [getSizeWithAlignment]
  split <;> omega

theorem getSizeWithAlignment_of_dvd {n : Nat} (h : n % 8 = 0) : getSizeWithAlignment n = n := by
  simp [getSizeWithAlignment, h]

theorem getSizeWithAlignment_idem (n : Nat) :
    getSizeWithAlignment (getSizeWithAlignment n) = getSizeWithAlignment n :=
  getSizeWithAlignment_of_dvd (getSizeWithAlignment_mod n)

theorem getSizeWithAlignment_pos {n : Nat} (h : 1 ≤ n) : 8 ≤ getSizeWithAlignment n := by
  have hle := le_getSizeWithAlignment n
  have hmod := getSizeWithAlignment_mod n
  omega

theorem getSizeWithAlignment_le {n : Nat} (h : n ≤ maxObjectSize) :
    getSizeWithAlignment n ≤ maxObjectSize := by
  have hlt := getSizeWithAlignment_lt n
  have hmod := getSizeWithAlignment_mod n
  simp only [maxObjectSize] at *
  omega

theorem Config.blocksCount_mul (cfg : Config) : blockSize * cfg.blocksCount = cfg.heapSize :=
  Nat.mul_div_cancel' cfg.blockSize_dvd

theorem Config.blocksCount_pos (cfg : Config) : 0 < cfg.blocksCount := by
  have hpos := cfg.heapSize_pos
  rw [← cfg.blocksCount_mul] at hpos
  exact Nat.pos_of_mul_pos_left hpos

theorem Config.blockAddr_end_le (cfg : Config) {i : Nat} (h : i < cfg.blocksCount) :
    cfg.blockAddr i + blockSize ≤ cfg.smallEnd := by
  have hmul := cfg.blocksCount_mul
  simp only [Config.blockAddr, Config.smallEnd, blockSize] at *
  omega

theorem Config.blockAddr_lt (cfg : Config) {i : Nat} (h : i < cfg.blocksCount) :
    cfg.blockAddr i + blockSize < 2 ^ 64 :=
  Nat.lt_of_le_of_lt (cfg.blockAddr_end_le h) cfg.smallEnd_lt

theorem Config.blockAddr_apart (cfg : Config) {i j : Nat} (h : i < j) :
    cfg.blockAddr i + blockSize ≤ cfg.blockAddr j := by
  simp only [Config.blockAddr, blockSize] at *
  omega

theorem Config.blockAddr_ne (cfg : Config) {i j : Nat} (h : i ≠ j) :
    cfg.blockAddr i + blockSize ≤ cfg.blockAddr j ∨
      cfg.blockAddr j + blockSize ≤ cfg.blockAddr i := by
  rcases Nat.lt_or_gt_of_ne h with hlt | hgt
  · exact Or.inl (cfg.blockAddr_apart hlt)
  · exact Or.inr (cfg.blockAddr_apart hgt)

section Slots

variable (cfg : Config) {i n k k' : Nat}

theorem Config.slotAddr_succ (i n k : Nat) :
    cfg.slotAddr i n (k + 1) = cfg.slotAddr i n k + getSizeWithAlignment n := by
  simp only [Config.slotAddr, Nat.succ_mul]
  omega

theorem Config.slotAddr_zero (i n : Nat) :
    cfg.slotAddr i n 0 = cfg.blockAddr i + blockHeaderSize := by
  simp [Config.slotAddr]

theorem Config.slotAddr_mono (h : k ≤ k') : cfg.slotAddr i n k ≤ cfg.slotAddr i n k' := by
  have hmul := Nat.mul_le_mul_right (getSizeWithAlignment n) h
  simp only [Config.slotAddr]
  omega

theorem Config.slotAddr_lt_iff (hn : 1 ≤ n) :
    cfg.slotAddr i n k < cfg.slotAddr i n k' ↔ k < k' := by
  have hpos := getSizeWithAlignment_pos hn
  constructor
  · intro h
    by_contra hle
    have := cfg.slotAddr_mono (i := i) (n := n) (Nat.le_of_not_lt hle)
    omega
  · intro h
    have := cfg.slotAddr_mono (i := i) (n := n) (Nat.succ_le_of_lt h)
    rw [Config.slotAddr_succ] at this
    omega

theorem Config.slotAddr_inj (hn : 1 ≤ n) (h : cfg.slotAddr i n k = cfg.slotAddr i n k') :
    k = k' := by
  rcases lt_trichotomy k k' with hlt | heq | hgt
  · have := (cfg.slotAddr_lt_iff (i := i) hn).mpr hlt
    omega
  · exact heq
  · have := (cfg.slotAddr_lt_iff (i := i) hn).mpr hgt
    omega

/-- A slot is whole exactly when it ends inside its block. -/
theorem Config.lt_slotCount_iff (hn : 1 ≤ n) :
    k < slotCount n ↔ cfg.slotAddr i n (k + 1) ≤ cfg.blockAddr i + blockSize := by
  have hpos := getSizeWithAlignment_pos hn
  rw [slotCount, Nat.lt_iff_add_one_le, Nat.le_div_iff_mul_le (by omega)]
  simp only [Config.slotAddr, blockSize, blockHeaderSize]
  omega

theorem slotCount_lt (hn : 1 ≤ n) : slotCount n < 8 * bitmapBytesCount := by
  have hpos := getSizeWithAlignment_pos hn
  rw [slotCount, Nat.div_lt_iff_lt_mul (by omega)]
  simp only [blockSize, blockHeaderSize, bitmapBytesCount]
  omega

theorem one_le_of_lt_slotCount (h : k < slotCount n) : 1 ≤ n := by
  rcases Nat.eq_zero_or_pos n with rfl | hpos
  · simp [slotCount, getSizeWithAlignment] at h
  · exact hpos

theorem slotCount_pos (hn : 1 ≤ n) (hle : n ≤ maxObjectSize) : 0 < slotCount n := by
  have hup := getSizeWithAlignment_le hle
  have hpos := getSizeWithAlignment_pos hn
  simp only [slotCount, blockSize, blockHeaderSize, maxObjectSize] at *
  exact Nat.div_pos (by omega) (by omega)

end Slots

/-- The smallest heap: one block, two tree nodes. -/
def oneBlock : Config where
  heapSize := 4096
  smallStart := 4096
  largeStart := 8192
  heapSize_pos := by decide
  blockSize_dvd := by decide
  smallStart_pos := by decide
  largeStart_pos := by decide
  smallEnd_lt := by decide
  largeEnd_lt := by decide
  heaps_disjoint := by decide

/-- Two blocks, four tree nodes. -/
def twoBlocks : Config where
  heapSize := 8192
  smallStart := 4096
  largeStart := 16384
  heapSize_pos := oneBlock.largeStart_pos
  blockSize_dvd := by decide
  smallStart_pos := oneBlock.smallStart_pos
  largeStart_pos := by decide
  smallEnd_lt := by decide
  largeEnd_lt := by decide
  heaps_disjoint := by decide

end GarbageCollector
