import GarbageCollector.SmallAllocator

/-!
# The sweep of the small heap

`sweep_small_heap` rebuilds all lists from the bitmaps and puts every slider back to the
start of its block.
-/

namespace GarbageCollector

open Bytes LinkedList

variable (cfg : Config)

/-- The body of the loop of `sweep_small_heap`. -/
def sweepBlock (s : SmallHeap) (i : Nat) : SmallHeap :=
  let blockAddr := cfg.blockAddr i
  let s := { s with
    mem := store64 s.mem (getSliderPositionAddr blockAddr) (blockAddr + blockHeaderSize)
    nextNode := Function.update s.nextNode i none }
  if isBitmapEmpty s.mem blockAddr = true then
    let s := { s with mem := store64 s.mem (getObjectSizeAddr blockAddr) 0 }
    match s.emptyListHead with
    | none => { s with emptyListHead := some i }
    | some head =>
      { s with nextNode := Function.update s.nextNode i (some head), emptyListHead := some i }
  else
    let objectSize := headerSize cfg s.mem i
    match s.segregList objectSize with
    | none => { s with segregList := Function.update s.segregList objectSize (some i) }
    | some head =>
      { s with
        nextNode := Function.update s.nextNode i (some head)
        segregList := Function.update s.segregList objectSize (some i) }

/-- The two loops that set the heads to `NULL`. -/
def resetHeads (s : SmallHeap) : SmallHeap :=
  { s with
    emptyListHead := none
    segregList := fun i => if i < objectSizeUpperBound then none else s.segregList i }

def sweepSmallHeap (s : SmallHeap) : SmallHeap :=
  (List.range cfg.blocksCount).foldl (sweepBlock cfg) (resetHeads s)

/-- The blocks below `k` without a mark bit, last one first. -/
def emptyBlocks (m : Mem) (k : Nat) : List Nat :=
  ((List.range k).filter fun i => isBitmapEmpty m (cfg.blockAddr i)).reverse

/-- The blocks below `k` with a mark bit and header size `n`, last one first. -/
def markedBlocks (m : Mem) (n k : Nat) : List Nat :=
  ((List.range k).filter fun i =>
    !isBitmapEmpty m (cfg.blockAddr i) && headerSize cfg m i == n).reverse

variable {cfg} {m : Mem} {s : SmallHeap} {i k n x : Nat}

theorem mem_emptyBlocks {b : Nat} :
    b ∈ emptyBlocks cfg m k ↔ b < k ∧ isBitmapEmpty m (cfg.blockAddr b) = true := by
  simp [emptyBlocks]

theorem mem_markedBlocks {b : Nat} :
    b ∈ markedBlocks cfg m n k ↔
      b < k ∧ isBitmapEmpty m (cfg.blockAddr b) = false ∧ headerSize cfg m b = n := by
  simp [markedBlocks]

theorem emptyBlocks_succ :
    emptyBlocks cfg m (k + 1) =
      if isBitmapEmpty m (cfg.blockAddr k) = true then k :: emptyBlocks cfg m k
      else emptyBlocks cfg m k := by
  simp only [emptyBlocks, List.range_succ, List.filter_append, List.reverse_append]
  split <;> simp_all

theorem markedBlocks_succ :
    markedBlocks cfg m n (k + 1) =
      if isBitmapEmpty m (cfg.blockAddr k) = false ∧ headerSize cfg m k = n then
        k :: markedBlocks cfg m n k
      else markedBlocks cfg m n k := by
  simp only [markedBlocks, List.range_succ, List.filter_append, List.reverse_append]
  split <;> rename_i h
  · simp [h.1, h.2]
  · by_cases he : isBitmapEmpty m (cfg.blockAddr k) = false
    · have hn : headerSize cfg m k ≠ n := fun hn => h ⟨he, hn⟩
      simp [he, hn]
    · simp [Bool.eq_true_of_not_eq_false he]

/-- The sizes after a sweep: the blocks without mark bits lose theirs. -/
def sweptSize (cfg : Config) (m : Mem) (i : Nat) : Nat :=
  if isBitmapEmpty m (cfg.blockAddr i) = true then 0 else headerSize cfg m i

/-- The loop has dealt with the blocks below `k`, starting from memory `m`. -/
structure SweptTo (cfg : Config) (m : Mem) (k : Nat) (s : SmallHeap) : Prop where
  empty : IsList s.nextNode s.emptyListHead (emptyBlocks cfg m k)
  segreg : ∀ n, n < objectSizeUpperBound →
    IsList s.nextNode (s.segregList n) (markedBlocks cfg m n k)
  sliders : ∀ i, i < k → slider cfg s.mem i = cfg.blockAddr i + blockHeaderSize
  sizes : ∀ i, i < k → headerSize cfg s.mem i = sweptSize cfg m i
  frame : ∀ x, (∀ i, i < k → x < cfg.blockAddr i ∨ cfg.blockAddr i + 16 ≤ x) → s.mem x = m x

theorem resetHeads_swept (cfg : Config) (s : SmallHeap) :
    SweptTo cfg s.mem 0 (resetHeads s) := by
  constructor
  · rfl
  · intro n hn
    simp [resetHeads, hn, markedBlocks]
  · intro i hi
    omega
  · intro i hi
    omega
  · intro x _
    rfl

/-- Both branches on the old head link the node in front of it. -/
theorem sweepBlock_eq (cfg : Config) (s : SmallHeap) (i : Nat) :
    let m₁ := store64 s.mem (getSliderPositionAddr (cfg.blockAddr i))
      (cfg.blockAddr i + blockHeaderSize)
    sweepBlock cfg s i =
      if isBitmapEmpty m₁ (cfg.blockAddr i) = true then
        { s with
          mem := store64 m₁ (getObjectSizeAddr (cfg.blockAddr i)) 0
          nextNode := Function.update s.nextNode i s.emptyListHead
          emptyListHead := some i }
      else
        { s with
          mem := m₁
          nextNode := Function.update s.nextNode i (s.segregList (headerSize cfg m₁ i))
          segregList := Function.update s.segregList (headerSize cfg m₁ i) (some i) } := by
  intro m₁
  simp only [sweepBlock]
  split
  · cases hh : s.emptyListHead <;> simp [m₁]
  · cases hh : s.segregList (headerSize cfg m₁ i) <;> simp [m₁]

theorem SweptTo.mem_same (h : SweptTo cfg m k s) (hx : cfg.blockAddr k ≤ x) : s.mem x = m x :=
  h.frame x fun i hi => by
    have hap := cfg.blockAddr_apart hi
    simp only [blockSize] at hap
    omega

theorem sweepBlock_swept (hk : k < cfg.blocksCount) (h : SweptTo cfg m k s) :
    SweptTo cfg m (k + 1) (sweepBlock cfg s k) := by
  have hbits : isBitmapEmpty (store64 s.mem (getSliderPositionAddr (cfg.blockAddr k))
      (cfg.blockAddr k + blockHeaderSize)) (cfg.blockAddr k) =
      isBitmapEmpty m (cfg.blockAddr k) := isBitmapEmpty_congr fun x hx => by
    rw [store_slider_bitmap cfg _ k k _ hx]
    exact h.mem_same (by have := hx.1; simp only [getBitmapAddr] at this; omega)
  have hsize : headerSize cfg s.mem k = headerSize cfg m k :=
    headerSize_congr fun x hlo _ => h.mem_same (by omega)
  have hfresh : ∀ b, b < k → b ≠ k := fun b hb => by omega
  have hlt := cfg.blockAddr_lt hk
  have hmod : (cfg.blockAddr k + blockHeaderSize) % 2 ^ 64 = cfg.blockAddr k + blockHeaderSize :=
    Nat.mod_eq_of_lt (by simp only [blockSize, blockHeaderSize] at *; omega)
  rw [sweepBlock_eq]
  simp only [hbits, headerSize_store_slider, hsize]
  by_cases hempty : isBitmapEmpty m (cfg.blockAddr k) = true
  · rw [if_pos hempty]
    constructor
    · rw [emptyBlocks_succ, if_pos hempty]
      exact h.empty.push fun hmem => hfresh k (mem_emptyBlocks.mp hmem).1 rfl
    · intro n hn
      rw [markedBlocks_succ, if_neg (by simp [hempty])]
      exact (h.segreg n hn).update_of_not_mem
        (fun hmem => hfresh k (mem_markedBlocks.mp hmem).1 rfl) _
    · intro i hi
      simp only [slider_store_size, slider_store_slider, hmod]
      split
      · rename_i heq
        rw [heq]
      · exact h.sliders i (by omega)
    · intro i hi
      rw [headerSize_store_size, headerSize_store_slider]
      split
      · rename_i heq
        simp [heq, sweptSize, hempty]
      · exact h.sizes i (by omega)
    · intro x hx
      have hxk := hx k (by omega)
      simp only
      rw [store_size_frame (h := by omega), store_slider_frame (h := by omega)]
      exact h.frame x fun i hi => hx i (by omega)
  · rw [if_neg hempty]
    have hmarked : isBitmapEmpty m (cfg.blockAddr k) = false := by simpa using hempty
    constructor
    · have hnot : k ∉ emptyBlocks cfg m k := fun hmem => hfresh k (mem_emptyBlocks.mp hmem).1 rfl
      rw [emptyBlocks_succ, if_neg hempty]
      exact h.empty.update_of_not_mem hnot _
    · intro n hn
      have hlist := h.segreg n hn
      have hnot : k ∉ markedBlocks cfg m n k :=
        fun hmem => hfresh k (mem_markedBlocks.mp hmem).1 rfl
      by_cases hsz : headerSize cfg m k = n
      · subst hsz
        simp only [markedBlocks_succ, hmarked, and_self, if_true, Function.update_self]
        exact hlist.push hnot
      · simp only [markedBlocks_succ, hsz, and_false, if_false, Function.update_of_ne (Ne.symm hsz)]
        exact hlist.update_of_not_mem hnot _
    · intro i hi
      simp only [slider_store_slider, hmod]
      split
      · rename_i heq
        rw [heq]
      · exact h.sliders i (by omega)
    · intro i hi
      rw [headerSize_store_slider]
      by_cases heq : i = k
      · rw [heq, hsize, sweptSize, if_neg hempty]
      · exact h.sizes i (by omega)
    · intro x hx
      have hxk := hx k (by omega)
      simp only
      rw [store_slider_frame (h := by omega)]
      exact h.frame x fun i hi => hx i (by omega)

theorem sweep_range_swept (hk : k ≤ cfg.blocksCount) (h : SweptTo cfg m 0 s) :
    SweptTo cfg m k ((List.range k).foldl (sweepBlock cfg) s) := by
  induction k with
  | zero => exact h
  | succ k ih =>
    rw [List.range_succ, List.foldl_append, List.foldl_cons, List.foldl_nil]
    exact sweepBlock_swept (by omega) (ih (by omega))

/-- What `sweep_small_heap` leaves: the lists are read off the bitmaps and the header sizes. -/
theorem sweepSmallHeap_swept (cfg : Config) (s : SmallHeap) :
    SweptTo cfg s.mem cfg.blocksCount (sweepSmallHeap cfg s) :=
  sweep_range_swept le_rfl (resetHeads_swept cfg s)

theorem SweptTo.markBit {i j : Nat} (h : SweptTo cfg m k s) (hj : j < 8 * bitmapBytesCount) :
    markBit cfg s.mem i j = markBit cfg m i j :=
  markBit_congr hj fun x hx => h.frame x fun b _ => inBitmap_header_apart cfg b i hx

/-- All bitmap bytes of block `i` are zero. -/
def ZeroBitmap (cfg : Config) (m : Mem) (i : Nat) : Prop :=
  ∀ x, InBitmap cfg i x → m x = 0#8

theorem isBitmapEmpty_iff_zero : isBitmapEmpty m (cfg.blockAddr i) = true ↔ ZeroBitmap cfg m i := by
  simp only [isBitmapEmpty, List.all_eq_true, List.mem_range, beq_iff_eq, load64_eq_zero]
  constructor
  · rintro h x ⟨hlo, hhi⟩
    obtain ⟨d, rfl⟩ := Nat.le.dest hlo
    have hword := h (d / 8) (by simp only [bitmapBytesCount] at *; omega) (d % 8) (by omega)
    rwa [Nat.add_assoc, Nat.div_add_mod] at hword
  · intro h j hj k hk
    refine h _ ⟨by omega, ?_⟩
    simp only [bitmapBytesCount] at *
    omega

/-- Every block is on one of the `NULL`-terminated lists, and there once. -/
structure Partitioned (cfg : Config) (s : SmallHeap) (empty : List Nat)
    (segreg : Nat → List Nat) : Prop where
  empty_ends : IsList s.nextNode s.emptyListHead empty
  segreg_ends : ∀ n, n < objectSizeUpperBound → IsList s.nextNode (s.segregList n) (segreg n)
  once : (empty ++ (List.range objectSizeUpperBound).flatMap segreg).Perm
    (List.range cfg.blocksCount)

theorem emptyBlocks_nodup : (emptyBlocks cfg m k).Nodup := by
  rw [emptyBlocks, List.nodup_reverse]
  exact List.nodup_range.filter _

theorem markedBlocks_nodup : (markedBlocks cfg m n k).Nodup := by
  rw [markedBlocks, List.nodup_reverse]
  exact List.nodup_range.filter _

theorem blocks_nodup :
    (emptyBlocks cfg m k ++
      (List.range objectSizeUpperBound).flatMap fun n => markedBlocks cfg m n k).Nodup := by
  refine List.Nodup.append emptyBlocks_nodup ?_ ?_
  · rw [List.nodup_flatMap]
    refine ⟨fun n _ => markedBlocks_nodup, List.nodup_range.imp fun hne b hb hb' => hne ?_⟩
    exact (mem_markedBlocks.mp hb).2.2.symm.trans (mem_markedBlocks.mp hb').2.2
  · intro b hb hb'
    obtain ⟨n, -, hb'⟩ := List.mem_flatMap.mp hb'
    have hmarked := (mem_markedBlocks.mp hb').2.1
    rw [(mem_emptyBlocks.mp hb).2] at hmarked
    cases hmarked

theorem mem_blocks {b : Nat} (sized : ∀ b, b < k → isBitmapEmpty m (cfg.blockAddr b) = false →
      headerSize cfg m b ≤ maxObjectSize) :
    (b ∈ emptyBlocks cfg m k ++
      (List.range objectSizeUpperBound).flatMap fun n => markedBlocks cfg m n k) ↔ b < k := by
  simp only [List.mem_append, List.mem_flatMap, List.mem_range, mem_emptyBlocks, mem_markedBlocks]
  constructor
  · rintro (⟨hb, -⟩ | ⟨n, -, hb, -⟩)
    · exact hb
    · exact hb
  · intro hb
    cases he : isBitmapEmpty m (cfg.blockAddr b)
    · exact Or.inr ⟨_, Nat.lt_succ_of_le (sized b hb he), hb, rfl, rfl⟩
    · exact Or.inl ⟨hb, rfl⟩

theorem partitioned_of_swept (h : SweptTo cfg m cfg.blocksCount s)
    (sized : ∀ b, b < cfg.blocksCount → isBitmapEmpty m (cfg.blockAddr b) = false →
      headerSize cfg m b ≤ maxObjectSize) :
    Partitioned cfg s (emptyBlocks cfg m cfg.blocksCount)
      fun n => markedBlocks cfg m n cfg.blocksCount where
  empty_ends := h.empty
  segreg_ends := h.segreg
  once := by
    apply (List.perm_ext_iff_of_nodup blocks_nodup List.nodup_range).mpr
    intro b
    rw [mem_blocks sized, List.mem_range]

theorem SweptTo.kept {b : Nat} (h : SweptTo cfg m k s) (hlo : cfg.blockAddr b + 16 ≤ x)
    (hhi : x < cfg.blockAddr b + blockSize) : s.mem x = m x := by
  refine h.frame x fun i _ => ?_
  rcases Nat.lt_trichotomy i b with hib | rfl | hib
  · have hap := cfg.blockAddr_apart hib
    simp only [blockSize] at *
    omega
  · exact Or.inr hlo
  · have hap := cfg.blockAddr_apart hib
    omega

/-- Whatever the old links and heads are, `sweep_small_heap` puts every block on the list that its
bitmap and header ask for. -/
theorem sweep_partitions (cfg : Config) (s : SmallHeap)
    (sized : ∀ b, b < cfg.blocksCount → ¬ ZeroBitmap cfg s.mem b →
      1 ≤ headerSize cfg s.mem b ∧ headerSize cfg s.mem b ≤ maxObjectSize) :
    ∃ empty segreg, Partitioned cfg (sweepSmallHeap cfg s) empty segreg ∧
      (∀ b, b < cfg.blocksCount →
        (ZeroBitmap cfg s.mem b →
          b ∈ empty ∧ headerSize cfg (sweepSmallHeap cfg s).mem b = 0) ∧
        (¬ ZeroBitmap cfg s.mem b → b ∈ segreg (headerSize cfg s.mem b) ∧
          headerSize cfg (sweepSmallHeap cfg s).mem b = headerSize cfg s.mem b) ∧
        slider cfg (sweepSmallHeap cfg s).mem b = cfg.blockAddr b + blockHeaderSize) ∧
      ∀ b x, getBitmapAddr (cfg.blockAddr b) ≤ x → x < cfg.blockAddr b + blockSize →
        (sweepSmallHeap cfg s).mem x = s.mem x := by
  have hswept := sweepSmallHeap_swept cfg s
  have hfalse : ∀ b, isBitmapEmpty s.mem (cfg.blockAddr b) = false ↔ ¬ ZeroBitmap cfg s.mem b :=
    fun b => by rw [← isBitmapEmpty_iff_zero, Bool.not_eq_true]
  refine ⟨_, _, partitioned_of_swept hswept fun b hb he => (sized b hb ((hfalse b).mp he)).2,
    ?_, ?_⟩
  · intro b hb
    refine ⟨fun hzero => ?_, fun hmarked => ?_, hswept.sliders b hb⟩
    · have he := isBitmapEmpty_iff_zero.mpr hzero
      exact ⟨mem_emptyBlocks.mpr ⟨hb, he⟩, by simp [hswept.sizes b hb, sweptSize, he]⟩
    · have he := (hfalse b).mpr hmarked
      exact ⟨mem_markedBlocks.mpr ⟨hb, he, rfl⟩, by simp [hswept.sizes b hb, sweptSize, he]⟩
  · exact fun b x hlo hhi => hswept.kept hlo hhi

/-- A block of size 16 with a mark and one of size 24 without, each linked to itself and both lists
starting at the first one. -/
def selfLinked : SmallHeap where
  mem := store64 (store64 (store64 (fun _ => 0#8) 4104 16) 4112 1) 8200 24
  segregList := fun _ => some 0
  nextNode := fun b => some b
  emptyListHead := some 0

theorem sweep_partitions_self_linked :
    ∃ empty segreg, Partitioned twoBlocks (sweepSmallHeap twoBlocks selfLinked) empty segreg ∧
      1 ∈ empty ∧ 0 ∈ segreg 16 ∧
      slider twoBlocks (sweepSmallHeap twoBlocks selfLinked).mem 0 = 4176 ∧
      (sweepSmallHeap twoBlocks selfLinked).mem 4112 = 1#8 := by
  have hmarked : ¬ ZeroBitmap twoBlocks selfLinked.mem 0 := fun hzero =>
    absurd (hzero 4112 (by decide)) (by decide +kernel)
  have hzero : ZeroBitmap twoBlocks selfLinked.mem 1 :=
    isBitmapEmpty_iff_zero.mp (by decide +kernel)
  have sized : ∀ b, b < twoBlocks.blocksCount → ¬ ZeroBitmap twoBlocks selfLinked.mem b →
      1 ≤ headerSize twoBlocks selfLinked.mem b ∧
        headerSize twoBlocks selfLinked.mem b ≤ maxObjectSize := by
    intro b hb hne
    have hcases : b = 0 ∨ b = 1 := by
      have hlt : b < 2 := hb
      omega
    rcases hcases with rfl | rfl
    · decide +kernel
    · exact absurd hzero hne
  obtain ⟨empty, segreg, hlists, hblocks, hkept⟩ := sweep_partitions twoBlocks selfLinked sized
  have hsize : headerSize twoBlocks selfLinked.mem 0 = 16 := by decide +kernel
  obtain ⟨-, hlisted, hslider⟩ := hblocks 0 (by decide)
  have hsegreg := (hlisted hmarked).1
  rw [hsize] at hsegreg
  exact ⟨empty, segreg, hlists, ((hblocks 1 (by decide)).1 hzero).1, hsegreg, hslider,
    (hkept 0 4112 (by decide) (by decide)).trans (by decide +kernel)⟩

end GarbageCollector
