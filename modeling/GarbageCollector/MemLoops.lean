import GarbageCollector.Memops
import GarbageCollector.WhileLoop

/-!
# The loops of `gc_memset` and `gc_memcpy`

Both functions with the index and the addresses as 64-bit numbers. The test of the chunk loop adds
16 to the index, which wraps around for counts near `2 ^ 64`; below them the loops do what
`gcMemset` and `gcMemcpy` say.
-/

namespace GarbageCollector

open Bytes WhileLoop

/-- The first `k` bytes `v 0`, `v 1`, ... stored from the address `a` on. -/
def storeRun (m : Mem) (a : Nat) (v : Nat → BitVec 8) : Nat → Mem
  | 0 => m
  | k + 1 => store8 (storeRun m a v k) ((a + k) % 2 ^ 64) (v k)

/-- The memory and the index `i`. -/
structure Filling where
  mem : Mem
  i : Nat

section Loops

variable (dest count : Nat) (byte : Mem → Nat → BitVec 8)

/-- `i + 16 <= count`. -/
def chunkLeft (s : Filling) : Bool := (s.i + 16) % 2 ^ 64 ≤ count

/-- One store of 16 bytes; `byte m i` is what goes to the position `i`. -/
def fillChunk (s : Filling) : Filling :=
  ⟨storeRun s.mem ((dest + s.i) % 2 ^ 64) (fun j => byte s.mem (s.i + j)) 16,
    (s.i + 16) % 2 ^ 64⟩

def byteLeft (s : Filling) : Bool := s.i < count

def fillByte (s : Filling) : Filling :=
  ⟨store8 s.mem ((dest + s.i) % 2 ^ 64) (byte s.mem s.i), (s.i + 1) % 2 ^ 64⟩

/-- The two loops, which share the index. -/
def fillLoops (fuel : Nat) (m : Mem) : Option Mem :=
  (loop (chunkLeft count) (fillChunk dest byte) fuel ⟨m, 0⟩).bind fun s =>
    (loop (byteLeft count) (fillByte dest byte) fuel s).map Filling.mem

end Loops

/-- `gc_memset`; no result if `fuel` tests do not suffice in one of the loops. -/
def gcMemsetLoops (fuel : Nat) (m : Mem) (dest : Nat) (value : Int) (count : Nat) : Option Mem :=
  fillLoops dest count (fun _ _ => BitVec.ofInt 8 value) fuel m

/-- `gc_memcpy`. -/
def gcMemcpyLoops (fuel : Nat) (m : Mem) (dest src count : Nat) : Option Mem :=
  fillLoops dest count (fun m i => m ((src + i) % 2 ^ 64)) fuel m

/-- The loop over the bytes alone: position after position, `count` of them. -/
def eachByte (m : Mem) (dest : Nat) (byte : Mem → Nat → BitVec 8) : Nat → Mem
  | 0 => m
  | k + 1 =>
    let m' := eachByte m dest byte k
    store8 m' ((dest + k) % 2 ^ 64) (byte m' k)

/-- The memory when the first `i` positions have got their bytes. -/
def filled (m : Mem) (dest : Nat) (v : Nat → BitVec 8) (i : Nat) : Mem :=
  fun x => if dest ≤ x ∧ x < dest + i then v (x - dest) else m x

section Filled

variable {m : Mem} {dest count i k x fuel : Nat} {v : Nat → BitVec 8}
  {byte : Mem → Nat → BitVec 8} {s : Filling}

theorem filled_of_not_mem (hx : ¬ (dest ≤ x ∧ x < dest + i)) : filled m dest v i x = m x :=
  if_neg hx

theorem filled_zero : filled m dest v 0 = m := by
  funext x
  exact filled_of_not_mem (by omega)

theorem store8_filled :
    store8 (filled m dest v i) (dest + i) (v i) = filled m dest v (i + 1) := by
  funext x
  by_cases hx : x = dest + i
  · rw [hx, store8, Function.update_self, filled, if_pos (by omega), Nat.add_sub_cancel_left]
  · rw [store8_of_ne hx, filled, filled]
    exact if_congr (by omega) rfl rfl

theorem storeRun_filled (h : dest + i + k ≤ 2 ^ 64) :
    storeRun (filled m dest v i) (dest + i) (fun j => v (i + j)) k = filled m dest v (i + k) := by
  induction k with
  | zero => rfl
  | succ k ih =>
    rw [storeRun, ih (by omega), Nat.mod_eq_of_lt (by omega), Nat.add_assoc dest, store8_filled]
    rfl

theorem storeRun_congr {a : Nat} {w : Nat → BitVec 8} (h : ∀ j, j < k → v j = w j) :
    storeRun m a v k = storeRun m a w k := by
  induction k with
  | zero => rfl
  | succ k ih =>
    rw [storeRun, storeRun, ih fun j hj => h j (by omega), h k (by omega)]

/-- The byte for a position is `v` of it, whatever part of the range is filled already. -/
def Steady (m : Mem) (dest count : Nat) (byte : Mem → Nat → BitVec 8)
    (v : Nat → BitVec 8) : Prop :=
  ∀ i j, i ≤ count → j < count → byte (filled m dest v i) j = v j

theorem eachByte_filled (hv : Steady m dest count byte v) (hd : dest + count ≤ 2 ^ 64)
    (hk : k ≤ count) : eachByte m dest byte k = filled m dest v k := by
  induction k with
  | zero => exact filled_zero.symm
  | succ k ih =>
    rw [eachByte, ih (by omega), hv k k (by omega) (by omega), Nat.mod_eq_of_lt (by omega),
      store8_filled]

/-- The invariant of both loops. -/
def FilledUpTo (m : Mem) (dest count : Nat) (v : Nat → BitVec 8) (s : Filling) : Prop :=
  s.i ≤ count ∧ s.mem = filled m dest v s.i

theorem fillChunk_filled (hv : Steady m dest count byte v) (hd : dest + count ≤ 2 ^ 64)
    (hcount : count < 2 ^ 64 - 16) (h : FilledUpTo m dest count v s)
    (hc : chunkLeft count s = true) :
    FilledUpTo m dest count v (fillChunk dest byte s) ∧
      count - (fillChunk dest byte s).i < count - s.i := by
  obtain ⟨hi, hmem⟩ := h
  have hroom : s.i + 16 ≤ count := by
    rw [chunkLeft, decide_eq_true_eq, Nat.mod_eq_of_lt (by omega)] at hc
    exact hc
  have hnext : (fillChunk dest byte s).i = s.i + 16 := Nat.mod_eq_of_lt (by omega)
  refine ⟨⟨by omega, ?_⟩, by omega⟩
  have hbytes : storeRun s.mem (dest + s.i) (fun j => byte s.mem (s.i + j)) 16 =
      storeRun s.mem (dest + s.i) (fun j => v (s.i + j)) 16 := by
    rw [hmem]
    exact storeRun_congr fun j hj => hv s.i (s.i + j) hi (by omega)
  rw [hnext, fillChunk, Nat.mod_eq_of_lt (by omega), hbytes, hmem, storeRun_filled (by omega)]

theorem fillByte_filled (hv : Steady m dest count byte v) (hd : dest + count ≤ 2 ^ 64)
    (hcount : count < 2 ^ 64) (h : FilledUpTo m dest count v s)
    (hc : byteLeft count s = true) :
    FilledUpTo m dest count v (fillByte dest byte s) ∧
      count - (fillByte dest byte s).i < count - s.i := by
  obtain ⟨hi, hmem⟩ := h
  have hroom : s.i < count := by
    rw [byteLeft, decide_eq_true_eq] at hc
    exact hc
  have hnext : (fillByte dest byte s).i = s.i + 1 := Nat.mod_eq_of_lt (by omega)
  refine ⟨⟨by omega, ?_⟩, by omega⟩
  rw [hnext, fillByte, hmem, hv s.i s.i hi hroom, Nat.mod_eq_of_lt (by omega), store8_filled]

/-- Both loops end, and then every position has its byte. -/
theorem fillLoops_filled (hv : Steady m dest count byte v) (hd : dest + count ≤ 2 ^ 64)
    (hcount : count < 2 ^ 64 - 16) (hf : count < fuel) :
    fillLoops dest count byte fuel m = some (filled m dest v count) := by
  have hstart : FilledUpTo m dest count v ⟨m, 0⟩ := ⟨Nat.zero_le _, filled_zero.symm⟩
  obtain ⟨s₁, hrun₁, hinv₁, -⟩ := loop_total (μ := fun s : Filling => count - s.i)
    (fun s hs hc => fillChunk_filled hv hd hcount hs hc) hstart
    (show count - 0 < fuel by omega)
  obtain ⟨s₂, hrun₂, ⟨hi, hmem⟩, hdone⟩ := loop_total (μ := fun s : Filling => count - s.i)
    (fun s hs hc => fillByte_filled hv hd (by omega) hs hc) hinv₁
    (show count - s₁.i < fuel by omega)
  have hend : s₂.i = count := by
    rw [byteLeft, decide_eq_false_iff_not] at hdone
    omega
  rw [fillLoops, hrun₁, Option.bind_some, hrun₂, Option.map_some, hmem, hend]

/-- With a count from `2 ^ 64 - 16` on the chunk loop starts again at the first byte when it has
reached the last chunk. -/
theorem fillLoops_diverges (hcount : 2 ^ 64 - 16 ≤ count) :
    fillLoops dest count byte fuel m = none := by
  have hwrap : loop (chunkLeft count) (fillChunk dest byte) fuel ⟨m, 0⟩ = none := by
    refine loop_diverges (I := fun s => s.i % 16 = 0) (fun s hs => ⟨?_, ?_⟩) rfl
    · rw [chunkLeft, decide_eq_true_eq]
      omega
    · simp only [fillChunk]
      omega
  rw [fillLoops, hwrap]
  rfl

end Filled

/-- With enough fuel there is a result; it is the one of the loop over the bytes, and no byte
outside the range differs from `m`. -/
def FillsRange (m : Mem) (dest count : Nat) (byte : Mem → Nat → BitVec 8)
    (run : Nat → Option Mem) : Prop :=
  ∃ m', (∃ least, ∀ fuel, least ≤ fuel → run fuel = some m') ∧
    m' = eachByte m dest byte count ∧ ∀ x, ¬ (dest ≤ x ∧ x < dest + count) → m' x = m x

/-- `gc_memset` does what storing the low byte of `value` at each of the bytes does. -/
def SetsRange (m : Mem) (dest : Nat) (value : Int) (count : Nat) : Prop :=
  FillsRange m dest count (fun _ _ => BitVec.ofInt 8 value)
    fun fuel => gcMemsetLoops fuel m dest value count

/-- `gc_memcpy` does what copying the bytes one by one does. -/
def CopiesRange (m : Mem) (dest src count : Nat) : Prop :=
  FillsRange m dest count (fun m i => m ((src + i) % 2 ^ 64))
    fun fuel => gcMemcpyLoops fuel m dest src count

/-- No byte of the source is one of the destination. -/
def SourceApart (dest src count : Nat) : Prop :=
  ∀ i, i < count → ¬ (dest ≤ (src + i) % 2 ^ 64 ∧ (src + i) % 2 ^ 64 < dest + count)

section Functions

variable {m : Mem} {dest src count fuel : Nat} {value : Int} {v : Nat → BitVec 8}
  {byte : Mem → Nat → BitVec 8}

theorem fills_of_steady (hv : Steady m dest count byte v) (hd : dest + count ≤ 2 ^ 64)
    (hcount : count < 2 ^ 64 - 16) :
    FillsRange m dest count byte fun fuel => fillLoops dest count byte fuel m := by
  refine ⟨filled m dest v count, ⟨count + 1, fun fuel hf => ?_⟩, ?_, fun x hx => ?_⟩
  · exact fillLoops_filled hv hd hcount hf
  · exact (eachByte_filled hv hd le_rfl).symm
  · exact filled_of_not_mem hx

theorem steady_memset : Steady m dest count (fun _ _ => BitVec.ofInt 8 value)
    fun _ => BitVec.ofInt 8 value :=
  fun _ _ _ _ => rfl

theorem steady_memcpy (h : SourceApart dest src count) :
    Steady m dest count (fun m i => m ((src + i) % 2 ^ 64)) fun i => m ((src + i) % 2 ^ 64) := by
  intro i j hi hj
  have hapart := h j hj
  exact filled_of_not_mem (by omega)

/-- Two ranges that do not meet leave no room for a count at which the test wraps around. -/
theorem count_lt_of_apart (hd : dest + count ≤ 2 ^ 64) (hs : src < 2 ^ 64)
    (h : SourceApart dest src count) : count < 2 ^ 64 - 16 := by
  by_contra hle
  by_cases hbelow : src ≤ dest
  · have hmeet := h (dest - src) (by omega)
    omega
  · by_cases hbehind : src < dest + count
    · have hmeet := h 0 (by omega)
      omega
    · have hmeet := h (dest + 2 ^ 64 - src) (by omega)
      omega

theorem copies_of_apart (hd : dest + count ≤ 2 ^ 64) (hs : src < 2 ^ 64)
    (h : SourceApart dest src count) : CopiesRange m dest src count :=
  fills_of_steady (steady_memcpy h) hd (count_lt_of_apart hd hs h)

/-- From `2 ^ 64 - 16` on `gc_memset` has no result. -/
theorem not_setsRange (hcount : 2 ^ 64 - 16 ≤ count) : ¬ SetsRange m dest value count := by
  rintro ⟨m', ⟨least, hrun⟩, -⟩
  have hnone : gcMemsetLoops least m dest value count = none := fillLoops_diverges hcount
  exact nomatch hnone.symm.trans (hrun least le_rfl)

/-- For the counts below, the loops are the functions that the callers are modelled with. -/
theorem gcMemsetLoops_eq (hd : dest + count ≤ 2 ^ 64) (hcount : count < 2 ^ 64 - 16)
    (hf : count < fuel) :
    gcMemsetLoops fuel m dest value count = some (gcMemset m dest value count) := by
  have hset : filled m dest (fun _ => BitVec.ofInt 8 value) count =
      gcMemset m dest value count := by
    funext x
    rw [gcMemset_apply, filled]
  rw [gcMemsetLoops, fillLoops_filled steady_memset hd hcount hf, hset]

theorem gcMemcpyLoops_eq (hd : dest + count ≤ 2 ^ 64) (hs : src + count ≤ 2 ^ 64)
    (hapart : dest + count ≤ src ∨ src + count ≤ dest) (hf : count < fuel) :
    gcMemcpyLoops fuel m dest src count = some (gcMemcpy m dest src count) := by
  have happ : SourceApart dest src count := by
    intro i hi
    rw [Nat.mod_eq_of_lt (by omega)]
    omega
  have hcopy : filled m dest (fun i => m ((src + i) % 2 ^ 64)) count =
      gcMemcpy m dest src count := by
    funext x
    rw [gcMemcpy_apply (by omega), filled]
    by_cases hx : dest ≤ x ∧ x < dest + count
    · rw [if_pos hx, if_pos hx, Nat.mod_eq_of_lt (by omega)]
    · rw [if_neg hx, if_neg hx]
  rw [gcMemcpyLoops, fillLoops_filled (steady_memcpy happ) hd (by omega) hf, hcopy]

/-- Both functions agree with the loops over the bytes exactly as long as the test of the chunk
loop does not wrap around. -/
theorem agrees_with_bytes_iff (hd : dest + count ≤ 2 ^ 64) :
    SetsRange m dest value count ∧
      (∀ src, src < 2 ^ 64 → SourceApart dest src count → CopiesRange m dest src count) ↔
      count < 2 ^ 64 - 16 := by
  constructor
  · rintro ⟨hset, -⟩
    by_contra hle
    exact not_setsRange (not_lt.mp hle) hset
  · intro hcount
    exact ⟨fills_of_steady steady_memset hd hcount, fun src hs h => copies_of_apart hd hs h⟩

end Functions

/-- One chunk and four bytes. -/
theorem agrees_with_bytes_iff_twenty :
    SetsRange (fun _ => 1#8) 4096 (-1) 20 ∧ (∀ src, src < 2 ^ 64 → SourceApart 4096 src 20 →
      CopiesRange (fun _ => 1#8) 4096 src 20) :=
  (agrees_with_bytes_iff (by decide)).mpr (by decide)

/-- For the range from 8 to `2 ^ 64 - 8` the test `i + 16 <= count` never fails. -/
theorem chunk_test_wraps :
    8 + (2 ^ 64 - 16) < 2 ^ 64 ∧ ¬ SetsRange (fun _ => 0#8) 8 0 (2 ^ 64 - 16) :=
  ⟨by decide, not_setsRange le_rfl⟩

end GarbageCollector
