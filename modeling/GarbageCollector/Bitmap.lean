import GarbageCollector.Layout
import Mathlib.Tactic.Linarith

/-!
# Mark bits

The bitmap in a block's header and the reads and writes of `bitmap.c`. Later modules see a
block header through `slider`, `headerSize` and `markBit` only.
-/

namespace GarbageCollector

open Bytes

variable (cfg : Config)

/-- `get_block_addr`. -/
def getBlockAddr (objectAddr : Nat) : Nat :=
  objectAddr - (objectAddr - cfg.smallStart) % blockSize

/-- The bit index that `get_bit_by_address` and `set_bit_by_address` compute. -/
def objectIndex (m : Mem) (objectAddr : Nat) : Nat :=
  let blockAddr := getBlockAddr cfg objectAddr
  let objectsAddr := blockAddr + blockHeaderSize
  let objectSize := load64 m (getObjectSizeAddr blockAddr)
  (objectAddr - objectsAddr) / getSizeWithAlignment objectSize

def getBitByAddress (m : Mem) (objectAddr : Nat) : BitVec 8 :=
  let index := objectIndex cfg m objectAddr
  let bytePosition := getBitmapAddr (getBlockAddr cfg objectAddr) + index / 8
  (m bytePosition >>> (index % 8)) &&& 1#8

def setBitByAddress (m : Mem) (objectAddr : Nat) (bit : BitVec 8) : Mem :=
  let index := objectIndex cfg m objectAddr
  let bytePosition := getBitmapAddr (getBlockAddr cfg objectAddr) + index / 8
  if (m bytePosition >>> (index % 8)) &&& 1#8 ≠ bit then
    store8 m bytePosition (m bytePosition ^^^ (1#8 <<< (index % 8)))
  else m

/-- The loop returns false at the first word that is not zero. -/
def isBitmapEmpty (m : Mem) (blockAddr : Nat) : Bool :=
  (List.range (bitmapBytesCount / 8)).all fun j => load64 m (getBitmapAddr blockAddr + 8 * j) == 0

/-- The loop over the eight words of a bitmap in `init_header` and in
`fill_all_bitmaps_with_zeros`. -/
def zeroBitmap (m : Mem) (blockAddr : Nat) : Mem :=
  zeroWords m (getBitmapAddr blockAddr) (bitmapBytesCount / 8)

def slider (m : Mem) (i : Nat) : Nat := load64 m (getSliderPositionAddr (cfg.blockAddr i))

def headerSize (m : Mem) (i : Nat) : Nat := load64 m (getObjectSizeAddr (cfg.blockAddr i))

def markBit (m : Mem) (i j : Nat) : Bool :=
  (m (getBitmapAddr (cfg.blockAddr i) + j / 8)).getLsbD (j % 8)

/-- `a` is one of the bitmap bytes of block `i`. -/
def InBitmap (i a : Nat) : Prop :=
  getBitmapAddr (cfg.blockAddr i) ≤ a ∧ a < getBitmapAddr (cfg.blockAddr i) + bitmapBytesCount

instance (i a : Nat) : Decidable (InBitmap cfg i a) := inferInstanceAs (Decidable (_ ∧ _))

variable {cfg} {m m' : Mem} {i i' j j' a : Nat}

theorem getBlockAddr_of_mem (hlo : cfg.blockAddr i ≤ a) (hhi : a < cfg.blockAddr i + blockSize) :
    getBlockAddr cfg a = cfg.blockAddr i := by
  have hmod : (a - cfg.smallStart) % blockSize = a - cfg.blockAddr i := by
    have hsplit : a - cfg.smallStart = (a - cfg.blockAddr i) + blockSize * i := by
      simp only [Config.blockAddr] at *
      omega
    rw [hsplit, Nat.add_mul_mod_self_left, Nat.mod_eq_of_lt (by omega)]
  rw [getBlockAddr, hmod]
  omega

/-- Every address of the small heap lies in one block. -/
theorem exists_block (hlo : cfg.smallStart ≤ a) (hhi : a < cfg.smallEnd) :
    ∃ i, i < cfg.blocksCount ∧ cfg.blockAddr i ≤ a ∧ a < cfg.blockAddr i + blockSize := by
  refine ⟨(a - cfg.smallStart) / blockSize, ?_, ?_, ?_⟩
  · rw [Nat.div_lt_iff_lt_mul (by decide), Nat.mul_comm, cfg.blocksCount_mul]
    simp only [Config.smallEnd] at hhi
    omega
  · have hdiv := Nat.mul_div_le (a - cfg.smallStart) blockSize
    simp only [Config.blockAddr]
    omega
  · have hmod := Nat.mod_lt (a - cfg.smallStart) (show 0 < blockSize by decide)
    have hdiv := Nat.div_add_mod (a - cfg.smallStart) blockSize
    simp only [Config.blockAddr]
    omega

theorem objectIndex_of_mem (hlo : cfg.blockAddr i ≤ a) (hhi : a < cfg.blockAddr i + blockSize) :
    objectIndex cfg m a =
      (a - (cfg.blockAddr i + blockHeaderSize)) / getSizeWithAlignment (headerSize cfg m i) := by
  simp only [objectIndex, getBlockAddr_of_mem hlo hhi, headerSize]

theorem objectIndex_lt (hlo : cfg.blockAddr i ≤ a) (hhi : a < cfg.blockAddr i + blockSize) :
    objectIndex cfg m a < 8 * bitmapBytesCount := by
  rw [objectIndex_of_mem hlo hhi]
  rcases Nat.eq_zero_or_pos (headerSize cfg m i) with hzero | hpos
  · simp [hzero, getSizeWithAlignment, bitmapBytesCount]
  · have hup := getSizeWithAlignment_pos hpos
    rw [Nat.div_lt_iff_lt_mul (by omega)]
    simp only [bitmapBytesCount, blockSize, blockHeaderSize] at *
    omega

theorem objectIndex_slotAddr {n k : Nat} (hn : 1 ≤ n) (hsize : headerSize cfg m i = n)
    (hlt : cfg.slotAddr i n k < cfg.blockAddr i + blockSize) :
    objectIndex cfg m (cfg.slotAddr i n k) = k := by
  have hpos := getSizeWithAlignment_pos hn
  have hlo : cfg.blockAddr i ≤ cfg.slotAddr i n k := by
    simp only [Config.slotAddr]
    omega
  rw [objectIndex_of_mem hlo hlt, hsize, Config.slotAddr, Nat.add_sub_cancel_left,
    Nat.mul_div_cancel _ (by omega)]

theorem bitmap_byte_in (hj : j < 8 * bitmapBytesCount) :
    InBitmap cfg i (getBitmapAddr (cfg.blockAddr i) + j / 8) := by
  constructor <;> omega

/-- The bitmaps of different blocks and different bytes of one bitmap do not meet. -/
theorem bitmap_byte_inj (hj : j < 8 * bitmapBytesCount) (hj' : j' < 8 * bitmapBytesCount)
    (h : getBitmapAddr (cfg.blockAddr i) + j / 8 = getBitmapAddr (cfg.blockAddr i') + j' / 8) :
    i = i' ∧ j / 8 = j' / 8 := by
  have hi : i = i' := by
    by_contra hne
    have hap := cfg.blockAddr_ne hne
    simp only [getBitmapAddr, bitmapBytesCount, blockSize] at *
    omega
  subst hi
  exact ⟨rfl, by omega⟩

theorem byte_bit (b : BitVec 8) (k : Nat) :
    (b >>> k) &&& 1#8 = if b.getLsbD k then 1#8 else 0#8 := by
  apply BitVec.eq_of_getLsbD_eq
  intro x hx
  rcases x with _ | x
  · cases hb : b.getLsbD k <;> simp [hb]
  · cases hb : b.getLsbD k <;> simp [BitVec.getLsbD_one]

theorem flip_bit (b : BitVec 8) {k j : Nat} (hk : k < 8) (hj : j < 8) :
    (b ^^^ (1#8 <<< k)).getLsbD j = if j = k then !b.getLsbD k else b.getLsbD j := by
  rw [BitVec.getLsbD_xor, BitVec.getLsbD_shiftLeft]
  by_cases hjk : j = k
  · subst hjk
    simp [hj]
  · rw [if_neg hjk]
    rcases Nat.lt_or_gt_of_ne hjk with hlt | hgt
    · simp [hlt]
    · have hsub : j - k ≠ 0 := by omega
      simp [BitVec.getLsbD_one, hsub]

theorem getBitByAddress_eq (hlo : cfg.blockAddr i ≤ a) (hhi : a < cfg.blockAddr i + blockSize) :
    getBitByAddress cfg m a = if markBit cfg m i (objectIndex cfg m a) then 1#8 else 0#8 := by
  simp only [getBitByAddress, getBlockAddr_of_mem hlo hhi, byte_bit, markBit]
  rfl

/-- `set_bit_by_address` writes one bit of one bitmap byte. -/
theorem setBitByAddress_eq (hlo : cfg.blockAddr i ≤ a) (hhi : a < cfg.blockAddr i + blockSize)
    (v : Bool) :
    setBitByAddress cfg m a (if v then 1#8 else 0#8) =
      if markBit cfg m i (objectIndex cfg m a) = v then m
      else store8 m (getBitmapAddr (cfg.blockAddr i) + objectIndex cfg m a / 8)
        (m (getBitmapAddr (cfg.blockAddr i) + objectIndex cfg m a / 8) ^^^
          (1#8 <<< (objectIndex cfg m a % 8))) := by
  simp only [setBitByAddress, getBlockAddr_of_mem hlo hhi, byte_bit]
  rw [show (m (getBitmapAddr (cfg.blockAddr i) + objectIndex cfg m a / 8)).getLsbD
    (objectIndex cfg m a % 8) = markBit cfg m i (objectIndex cfg m a) from rfl]
  cases hb : markBit cfg m i (objectIndex cfg m a) <;> cases v <;> simp

theorem setBitByAddress_frame (hlo : cfg.blockAddr i ≤ a)
    (hhi : a < cfg.blockAddr i + blockSize) (v : Bool) {x : Nat} (hx : ¬ InBitmap cfg i x) :
    setBitByAddress cfg m a (if v then 1#8 else 0#8) x = m x := by
  rw [setBitByAddress_eq hlo hhi]
  split
  · rfl
  · refine store8_of_ne fun he => hx ?_
    rw [he]
    exact bitmap_byte_in (objectIndex_lt hlo hhi)

theorem markBit_setBitByAddress (hlo : cfg.blockAddr i ≤ a)
    (hhi : a < cfg.blockAddr i + blockSize) (v : Bool) (hj : j < 8 * bitmapBytesCount) :
    markBit cfg (setBitByAddress cfg m a (if v then 1#8 else 0#8)) i' j =
      if i' = i ∧ j = objectIndex cfg m a then v else markBit cfg m i' j := by
  have hidx : objectIndex cfg m a < 8 * bitmapBytesCount := objectIndex_lt hlo hhi
  rw [setBitByAddress_eq hlo hhi]
  by_cases hsame : markBit cfg m i (objectIndex cfg m a) = v
  · rw [if_pos hsame]
    split
    · rename_i heq
      rw [heq.1, heq.2, hsame]
    · rfl
  · rw [if_neg hsame]
    simp only [markBit, store8, Function.update_apply]
    by_cases hbyte : getBitmapAddr (cfg.blockAddr i') + j / 8 =
        getBitmapAddr (cfg.blockAddr i) + objectIndex cfg m a / 8
    · obtain ⟨hi, hdiv⟩ := bitmap_byte_inj hj hidx hbyte
      subst hi
      rw [if_pos hbyte, flip_bit _ (by omega) (by omega), hdiv]
      by_cases hmod : j % 8 = objectIndex cfg m a % 8
      · have hje : j = objectIndex cfg m a := by omega
        simp only [markBit] at hsame
        rw [if_pos hmod, if_pos ⟨rfl, hje⟩]
        exact Bool.eq_not_of_ne hsame ▸ by simp
      · have hje : j ≠ objectIndex cfg m a := by omega
        rw [if_neg hmod, if_neg (by simp [hje])]
    · rw [if_neg hbyte, if_neg]
      rintro ⟨hi, hje⟩
      exact hbyte (by rw [hi, hje])

theorem getBitByAddress_eq_zero (hlo : cfg.blockAddr i ≤ a)
    (hhi : a < cfg.blockAddr i + blockSize) :
    getBitByAddress cfg m a = 0#8 ↔ markBit cfg m i (objectIndex cfg m a) = false := by
  rw [getBitByAddress_eq hlo hhi]
  cases markBit cfg m i (objectIndex cfg m a) <;> simp

theorem slider_congr (h : ∀ x, cfg.blockAddr i ≤ x → x < cfg.blockAddr i + 8 → m x = m' x) :
    slider cfg m i = slider cfg m' i :=
  load64_congr h

theorem headerSize_congr
    (h : ∀ x, cfg.blockAddr i + 8 ≤ x → x < cfg.blockAddr i + 16 → m x = m' x) :
    headerSize cfg m i = headerSize cfg m' i :=
  load64_congr fun x hlo hhi => h x hlo (by simp only [getObjectSizeAddr] at hhi; omega)

theorem markBit_congr (hj : j < 8 * bitmapBytesCount)
    (h : ∀ x, InBitmap cfg i x → m x = m' x) : markBit cfg m i j = markBit cfg m' i j := by
  simp only [markBit, h _ (bitmap_byte_in hj)]

/-- The words before a bitmap are in no bitmap. -/
theorem not_inBitmap_of_lt {x : Nat} (hlo : cfg.blockAddr i ≤ x)
    (hhi : x < cfg.blockAddr i + 16) : ¬ InBitmap cfg i' x := by
  rintro ⟨hlo', hhi'⟩
  by_cases hne : i = i'
  · subst hne
    simp only [getBitmapAddr] at hlo'
    omega
  · have hap := cfg.blockAddr_ne hne
    simp only [getBitmapAddr, bitmapBytesCount, blockSize] at *
    omega

theorem not_inBitmap_of_ge {x : Nat} (hlo : cfg.blockAddr i + blockHeaderSize ≤ x)
    (hhi : x < cfg.blockAddr i + blockSize) : ¬ InBitmap cfg i' x := by
  rintro ⟨hlo', hhi'⟩
  by_cases hne : i = i'
  · subst hne
    simp only [getBitmapAddr, bitmapBytesCount, blockHeaderSize] at *
    omega
  · have hap := cfg.blockAddr_ne hne
    simp only [getBitmapAddr, bitmapBytesCount, blockSize] at *
    omega

/-- A change of bitmap bytes only. -/
def SameOutsideBitmaps (cfg : Config) (m m' : Mem) : Prop :=
  ∀ x, (∀ i, i < cfg.blocksCount → ¬ InBitmap cfg i x) → m' x = m x

theorem SameOutsideBitmaps.refl (m : Mem) : SameOutsideBitmaps cfg m m := fun _ _ => rfl

theorem SameOutsideBitmaps.trans {m'' : Mem} (h : SameOutsideBitmaps cfg m m')
    (h' : SameOutsideBitmaps cfg m' m'') : SameOutsideBitmaps cfg m m'' :=
  fun x hx => (h' x hx).trans (h x hx)

theorem SameOutsideBitmaps.slider (h : SameOutsideBitmaps cfg m m') :
    slider cfg m' i = slider cfg m i :=
  slider_congr fun x hlo hhi => h x fun _ _ => not_inBitmap_of_lt hlo (by omega)

theorem SameOutsideBitmaps.headerSize (h : SameOutsideBitmaps cfg m m') :
    headerSize cfg m' i = headerSize cfg m i :=
  headerSize_congr fun x hlo hhi => h x fun _ _ => not_inBitmap_of_lt (by omega) hhi

theorem setBitByAddress_same (hi : i < cfg.blocksCount) (hlo : cfg.blockAddr i ≤ a)
    (hhi : a < cfg.blockAddr i + blockSize) (v : Bool) :
    SameOutsideBitmaps cfg m (setBitByAddress cfg m a (if v then 1#8 else 0#8)) :=
  fun _ hx => setBitByAddress_frame hlo hhi v (hx i hi)

theorem zeroBitmap_apply (x : Nat) :
    zeroBitmap m (cfg.blockAddr i) x = if InBitmap cfg i x then 0#8 else m x := by
  rw [zeroBitmap, zeroWords_apply]
  rfl

theorem zeroBitmap_same (hi : i < cfg.blocksCount) :
    SameOutsideBitmaps cfg m (zeroBitmap m (cfg.blockAddr i)) := by
  intro x hx
  rw [zeroBitmap_apply, if_neg (hx i hi)]

theorem markBit_zeroBitmap (hj : j < 8 * bitmapBytesCount) :
    markBit cfg (zeroBitmap m (cfg.blockAddr i)) i' j =
      if i' = i then false else markBit cfg m i' j := by
  have hin : InBitmap cfg i (getBitmapAddr (cfg.blockAddr i') + j / 8) ↔ i' = i := by
    constructor
    · rintro ⟨hlo, hhi⟩
      by_contra hne
      have hap := cfg.blockAddr_ne hne
      simp only [getBitmapAddr, bitmapBytesCount, blockSize] at *
      omega
    · rintro rfl
      exact bitmap_byte_in hj
  simp only [markBit, zeroBitmap_apply, hin]
  split <;> simp

theorem isBitmapEmpty_iff :
    isBitmapEmpty m (cfg.blockAddr i) = true ↔
      ∀ j, j < 8 * bitmapBytesCount → markBit cfg m i j = false := by
  have hbytes : isBitmapEmpty m (cfg.blockAddr i) = true ↔
      ∀ k, k < bitmapBytesCount → m (getBitmapAddr (cfg.blockAddr i) + k) = 0#8 := by
    simp only [isBitmapEmpty, List.all_eq_true, List.mem_range, beq_iff_eq, load64_eq_zero]
    constructor
    · intro h k hk
      have hword := h (k / 8) (by simp only [bitmapBytesCount] at *; omega) (k % 8) (by omega)
      rwa [Nat.add_assoc, Nat.div_add_mod] at hword
    · intro h j hj k hk
      rw [Nat.add_assoc]
      exact h _ (by simp only [bitmapBytesCount] at *; omega)
  rw [hbytes]
  constructor
  · intro h j hj
    simp [markBit, h (j / 8) (by omega)]
  · intro h k hk
    apply BitVec.eq_of_getLsbD_eq
    intro x hx
    have hbit := h (8 * k + x) (by omega)
    simp only [markBit] at hbit
    rw [show (8 * k + x) / 8 = k by omega, show (8 * k + x) % 8 = x by omega] at hbit
    simp [hbit]

theorem isBitmapEmpty_congr (h : ∀ x, InBitmap cfg i x → m x = m' x) :
    isBitmapEmpty m (cfg.blockAddr i) = isBitmapEmpty m' (cfg.blockAddr i) := by
  rw [Bool.eq_iff_iff, isBitmapEmpty_iff, isBitmapEmpty_iff]
  constructor
  · intro hz j hj
    rw [← markBit_congr hj h, hz j hj]
  · intro hz j hj
    rw [markBit_congr hj h, hz j hj]

section HeaderStores

variable (cfg m) (i i' v : Nat)

theorem header_bytes_apart {x : Nat} (hx : cfg.blockAddr i' ≤ x)
    (hx' : x < cfg.blockAddr i' + 16) (hne : i' ≠ i) :
    x < cfg.blockAddr i ∨ cfg.blockAddr i + 16 ≤ x := by
  have hap := cfg.blockAddr_ne hne
  simp only [blockSize] at hap
  omega

theorem store_slider_frame {x : Nat} (h : x < cfg.blockAddr i ∨ cfg.blockAddr i + 8 ≤ x) :
    store64 m (getSliderPositionAddr (cfg.blockAddr i)) v x = m x :=
  store64_of_not_mem h

theorem store_size_frame {x : Nat} (h : x < cfg.blockAddr i + 8 ∨ cfg.blockAddr i + 16 ≤ x) :
    store64 m (getObjectSizeAddr (cfg.blockAddr i)) v x = m x :=
  store64_of_not_mem (by simpa only [getObjectSizeAddr, Nat.add_assoc] using h)

theorem slider_store_slider :
    slider cfg (store64 m (getSliderPositionAddr (cfg.blockAddr i)) v) i' =
      if i' = i then v % 2 ^ 64 else slider cfg m i' := by
  split
  · rename_i heq
    rw [heq, slider, load64_store64]
  · rename_i hne
    refine slider_congr fun x hlo hhi => store_slider_frame cfg m i v ?_
    have hap := header_bytes_apart cfg i i' hlo (by omega) hne
    omega

@[simp] theorem headerSize_store_slider :
    headerSize cfg (store64 m (getSliderPositionAddr (cfg.blockAddr i)) v) i' =
      headerSize cfg m i' := by
  refine headerSize_congr fun x hlo hhi => store_slider_frame cfg m i v ?_
  by_cases hne : i' = i
  · subst hne
    omega
  · have hap := header_bytes_apart cfg i i' (by omega) hhi hne
    omega

@[simp] theorem slider_store_size :
    slider cfg (store64 m (getObjectSizeAddr (cfg.blockAddr i)) v) i' = slider cfg m i' := by
  refine slider_congr fun x hlo hhi => store_size_frame cfg m i v ?_
  by_cases hne : i' = i
  · subst hne
    omega
  · have hap := header_bytes_apart cfg i i' hlo (by omega) hne
    omega

theorem headerSize_store_size :
    headerSize cfg (store64 m (getObjectSizeAddr (cfg.blockAddr i)) v) i' =
      if i' = i then v % 2 ^ 64 else headerSize cfg m i' := by
  split
  · rename_i heq
    rw [heq, headerSize, load64_store64]
  · rename_i hne
    refine headerSize_congr fun x hlo hhi => store_size_frame cfg m i v ?_
    have hap := header_bytes_apart cfg i i' (by omega) hhi hne
    omega

theorem inBitmap_header_apart {x : Nat} (h : InBitmap cfg i' x) :
    x < cfg.blockAddr i ∨ cfg.blockAddr i + 16 ≤ x := by
  by_contra hin
  exact not_inBitmap_of_lt (i := i) (by omega) (by omega) h

theorem store_slider_bitmap {x : Nat} (h : InBitmap cfg i' x) :
    store64 m (getSliderPositionAddr (cfg.blockAddr i)) v x = m x := by
  have hap := inBitmap_header_apart cfg i i' h
  exact store_slider_frame cfg m i v (by omega)

theorem store_size_bitmap {x : Nat} (h : InBitmap cfg i' x) :
    store64 m (getObjectSizeAddr (cfg.blockAddr i)) v x = m x := by
  have hap := inBitmap_header_apart cfg i i' h
  exact store_size_frame cfg m i v (by omega)

theorem markBit_store_slider {j : Nat} (hj : j < 8 * bitmapBytesCount) :
    markBit cfg (store64 m (getSliderPositionAddr (cfg.blockAddr i)) v) i' j =
      markBit cfg m i' j :=
  markBit_congr hj fun _ hx => store_slider_bitmap cfg m i i' v hx

theorem markBit_store_size {j : Nat} (hj : j < 8 * bitmapBytesCount) :
    markBit cfg (store64 m (getObjectSizeAddr (cfg.blockAddr i)) v) i' j =
      markBit cfg m i' j :=
  markBit_congr hj fun _ hx => store_size_bitmap cfg m i i' v hx

end HeaderStores

/-- `a` lies in slot `k` of block `i`, a whole slot for the size in the header. -/
structure WithinSlot (cfg : Config) (m : Mem) (i k a : Nat) : Prop where
  block : i < cfg.blocksCount
  size : 1 ≤ headerSize cfg m i ∧ headerSize cfg m i ≤ maxObjectSize
  whole : k < slotCount (headerSize cfg m i)
  low : cfg.slotAddr i (headerSize cfg m i) k ≤ a
  high : a < cfg.slotAddr i (headerSize cfg m i) (k + 1)

section Slots

variable {k k' b : Nat}

theorem WithinSlot.blockAddr_le (ha : WithinSlot cfg m i k a) : cfg.blockAddr i ≤ a := by
  have hmono := cfg.slotAddr_mono (i := i) (n := headerSize cfg m i) (Nat.zero_le k)
  have hlow := ha.low
  rw [cfg.slotAddr_zero] at hmono
  omega

theorem WithinSlot.lt_blockEnd (ha : WithinSlot cfg m i k a) : a < cfg.blockAddr i + blockSize :=
  ha.high.trans_le ((cfg.lt_slotCount_iff ha.size.1).mp ha.whole)

/-- Every byte of a slot has the slot's bit. -/
theorem WithinSlot.index (ha : WithinSlot cfg m i k a) : objectIndex cfg m a = k := by
  have hlow := ha.low
  have hhigh := ha.high
  simp only [Config.slotAddr] at hlow hhigh
  rw [objectIndex_of_mem ha.blockAddr_le ha.lt_blockEnd]
  apply Nat.div_eq_of_lt_le
  · omega
  · omega

theorem WithinSlot.index_lt (ha : WithinSlot cfg m i k a) : k < 8 * bitmapBytesCount :=
  ha.whole.trans (slotCount_lt ha.size.1)

theorem WithinSlot.getBit (ha : WithinSlot cfg m i k a) :
    getBitByAddress cfg m a = if markBit cfg m i k then 1#8 else 0#8 := by
  rw [getBitByAddress_eq ha.blockAddr_le ha.lt_blockEnd, ha.index]

theorem WithinSlot.congr (ha : WithinSlot cfg m i k a)
    (same : headerSize cfg m' i = headerSize cfg m i) :
    WithinSlot cfg m' i k a := by
  constructor
  · exact ha.block
  · rw [same]
    exact ha.size
  · rw [same]
    exact ha.whole
  · rw [same]
    exact ha.low
  · rw [same]
    exact ha.high

theorem setBit_one_byte (ha : WithinSlot cfg m i k a) (v : Bool) :
    ∃ x, InBitmap cfg i x ∧
      ∀ y, y ≠ x → setBitByAddress cfg m a (if v then 1#8 else 0#8) y = m y := by
  refine ⟨getBitmapAddr (cfg.blockAddr i) + k / 8, bitmap_byte_in ha.index_lt, fun y hy => ?_⟩
  rw [setBitByAddress_eq ha.blockAddr_le ha.lt_blockEnd, ha.index]
  split
  · rfl
  · exact store8_of_ne hy

theorem getBit_setBit (ha : WithinSlot cfg m i k a) (hb : WithinSlot cfg m i' k' b) (v : Bool) :
    getBitByAddress cfg (setBitByAddress cfg m a (if v then 1#8 else 0#8)) b =
      if i = i' ∧ k = k' then (if v then 1#8 else 0#8) else getBitByAddress cfg m b := by
  have hsame := setBitByAddress_same (m := m) ha.block ha.blockAddr_le ha.lt_blockEnd v
  have hb' := hb.congr (hsame.headerSize : headerSize cfg _ i' = headerSize cfg m i')
  have hset : markBit cfg (setBitByAddress cfg m a (if v then 1#8 else 0#8)) i' k' =
      if i' = i ∧ k' = objectIndex cfg m a then v else markBit cfg m i' k' :=
    markBit_setBitByAddress ha.blockAddr_le ha.lt_blockEnd v hb.index_lt
  rw [ha.index] at hset
  rw [hb'.getBit, hset, hb.getBit]
  by_cases heq : i = i' ∧ k = k'
  · obtain ⟨rfl, rfl⟩ := heq
    simp
  · have hflip : ¬ (i' = i ∧ k' = k) := fun h => heq ⟨h.1.symm, h.2.symm⟩
    rw [if_neg heq, if_neg hflip]

/-- `set_bit_by_address` changes the bit of one slot and one byte of one bitmap. -/
theorem mark_bits_independent (ha : WithinSlot cfg m i k a) (hb : WithinSlot cfg m i' k' b)
    (v : BitVec 8) (hv : v = 0#8 ∨ v = 1#8) :
    getBitByAddress cfg (setBitByAddress cfg m a v) b =
        (if i = i' ∧ k = k' then v else getBitByAddress cfg m b) ∧
      (∃ x, InBitmap cfg i x ∧ ∀ y, y ≠ x → setBitByAddress cfg m a v y = m y) ∧
      ∀ j, slider cfg (setBitByAddress cfg m a v) j = slider cfg m j ∧
        headerSize cfg (setBitByAddress cfg m a v) j = headerSize cfg m j ∧
        ∀ y, cfg.blockAddr j + blockHeaderSize ≤ y → y < cfg.blockAddr j + blockSize →
          setBitByAddress cfg m a v y = m y := by
  obtain ⟨w, rfl⟩ : ∃ w : Bool, v = if w then 1#8 else 0#8 := by
    rcases hv with rfl | rfl
    · exact ⟨false, rfl⟩
    · exact ⟨true, rfl⟩
  have hsame := setBitByAddress_same (m := m) ha.block ha.blockAddr_le ha.lt_blockEnd w
  refine ⟨getBit_setBit ha hb w, setBit_one_byte ha w, fun j => ⟨hsame.slider, ?_, ?_⟩⟩
  · exact hsame.headerSize
  · exact fun y hlo hhi => hsame y fun _ _ => not_inBitmap_of_ge hlo hhi

/-- The bit of the first slot is set, the bit of the second one stays clear. -/
theorem mark_bits_independent_neighbours :
    getBitByAddress oneBlock
      (setBitByAddress oneBlock (store64 (fun _ => 0#8) 4104 16) 4180 1#8) 4192 = 0#8 := by
  have hsize : headerSize oneBlock (store64 (fun _ => 0#8) 4104 16) 0 = 16 := by decide +kernel
  have hfirst : WithinSlot oneBlock (store64 (fun _ => 0#8) 4104 16) 0 0 4180 := by
    constructor <;> try rw [hsize]
    all_goals decide
  have hsecond : WithinSlot oneBlock (store64 (fun _ => 0#8) 4104 16) 0 1 4192 := by
    constructor <;> try rw [hsize]
    all_goals decide
  rw [(mark_bits_independent hfirst hsecond 1#8 (Or.inr rfl)).1]
  decide +kernel

end Slots

end GarbageCollector
