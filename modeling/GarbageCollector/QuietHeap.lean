import GarbageCollector.BlockOwnership
import GarbageCollector.SweepSmall

/-!
# The small heap between calls

The moments at which no thread works on a block: after initialisation, after a sweep and
while threads are outside `allocate_small_object`.
-/

namespace GarbageCollector

open Bytes LinkedList

variable {T : Type}

/-- A thread outside `allocate_small_object`. -/
def Pc.atRest : Pc → Prop
  | .idle | .returned _ _ => True
  | _ => False

instance (pc : Pc) : Decidable pc.atRest := by
  cases pc <;> simp only [Pc.atRest] <;> infer_instance

section Rest

variable {cfg : Config} {s : SmallHeap} {th : T → Local} {place : Nat → Place T} {t : T}

/-- A thread at rest may start a call, end one, or do nothing. -/
theorem Owned.turn [DecidableEq T] (h : Owned cfg s th place) {pc : Pc}
    (hpc : ∀ n, pc = .enter n → InRange n) (hnew : pc.atRest ∨ ∃ n, pc = .enter n) :
    Owned cfg s (Function.update th t ((th t).goto pc)) place where
  empty := h.empty
  segreg := h.segreg
  next_lt := h.next_lt
  cached := by
    intro u n b hc
    by_cases hu : u = t
    · subst hu
      exact h.cached u n b (by simpa using hc)
    · exact h.cached u n b (by simpa [hu] using hc)
  working := by
    intro u
    by_cases hu : u = t
    · subst hu
      rw [Function.update_self]
      rcases hnew with hrest | ⟨n, rfl⟩
      · cases pc <;> simp_all [Pc.atRest, Working]
      · exact hpc n rfl
    · rw [Function.update_of_ne hu]
      exact h.working u
  header := h.header
  sizes := h.sizes

/-- Where the blocks are when all lists have just been rebuilt from memory `m`. -/
def sweptPlace (cfg : Config) (T : Type) (m : Mem) (b : Nat) : Place T :=
  if isBitmapEmpty m (cfg.blockAddr b) = true then .empty else .segreg (headerSize cfg m b)

theorem sweptPlace_empty {m : Mem} {b : Nat} :
    sweptPlace cfg T m b = .empty ↔ isBitmapEmpty m (cfg.blockAddr b) = true := by
  simp [sweptPlace]

theorem sweptPlace_segreg {m : Mem} {b n : Nat} :
    sweptPlace cfg T m b = .segreg n ↔
      isBitmapEmpty m (cfg.blockAddr b) = false ∧ headerSize cfg m b = n := by
  cases he : isBitmapEmpty m (cfg.blockAddr b) <;> simp [sweptPlace, he]

/-- After a sweep, with all caches cleared, the lists own all blocks. -/
theorem swept_owned (s : SmallHeap) (hidle : ∀ t, (th t).pc = .idle)
    (hcache : ∀ t n, (th t).nodesCache n = none)
    (hsizes : ∀ b, b < cfg.blocksCount → isBitmapEmpty s.mem (cfg.blockAddr b) = false →
      headerSize cfg s.mem b ≤ maxObjectSize) :
    Owned cfg (sweepSmallHeap cfg s) th (sweptPlace cfg T s.mem) := by
  have hswept := sweepSmallHeap_swept cfg s
  have hempty : ListOf (sweepSmallHeap cfg s).nextNode (sweepSmallHeap cfg s).emptyListHead
      fun b => b < cfg.blocksCount ∧ sweptPlace cfg T s.mem b = .empty :=
    ⟨_, hswept.empty, fun b => mem_emptyBlocks.trans (and_congr_right' sweptPlace_empty.symm)⟩
  have hsegreg : ∀ n, n < objectSizeUpperBound →
      ListOf (sweepSmallHeap cfg s).nextNode ((sweepSmallHeap cfg s).segregList n)
        fun b => b < cfg.blocksCount ∧ sweptPlace cfg T s.mem b = .segreg n := fun n hn =>
    ⟨_, hswept.segreg n hn, fun b =>
      mem_markedBlocks.trans (and_congr_right' sweptPlace_segreg.symm)⟩
  have hsize : ∀ b, b < cfg.blocksCount →
      headerSize cfg (sweepSmallHeap cfg s).mem b ≤ maxObjectSize := by
    intro b hb
    rw [hswept.sizes b hb, sweptSize]
    split
    · exact Nat.zero_le _
    · rename_i hmarked
      exact hsizes b hb (by simpa using hmarked)
  refine ⟨hempty, hsegreg, ?_, ?_, ?_, ?_, hsize⟩
  · intro b c hb hc
    cases he : isBitmapEmpty s.mem (cfg.blockAddr b) with
    | true => exact (hempty.next_mem ⟨hb, sweptPlace_empty.mpr he⟩ hc).1
    | false =>
      have hn : headerSize cfg s.mem b < objectSizeUpperBound := by
        have := hsizes b hb he
        simp only [objectSizeUpperBound]
        omega
      exact ((hsegreg _ hn).next_mem ⟨hb, sweptPlace_segreg.mpr ⟨he, rfl⟩⟩ hc).1
  · intro t n b hc
    rw [hcache t n] at hc
    cases hc
  · intro t
    simp only [Working, hidle t]
  · intro b hb
    cases he : isBitmapEmpty s.mem (cfg.blockAddr b) with
    | true =>
      rw [sweptPlace_empty.mpr he]
      exact True.intro
    | false =>
      have hsize' : headerSize cfg (sweepSmallHeap cfg s).mem b = headerSize cfg s.mem b := by
        rw [hswept.sizes b hb, sweptSize, he, if_neg Bool.false_ne_true]
      have hsl : slider cfg (sweepSmallHeap cfg s).mem b =
          cfg.slotAddr b (headerSize cfg s.mem b) 0 := by
        rw [hswept.sliders b hb, cfg.slotAddr_zero]
      rw [sweptPlace_segreg.mpr ⟨he, rfl⟩]
      exact ⟨hsize', hsl⟩

/-- The heap that `mmap` returns reads as zero. -/
def ZeroedSmallHeap (cfg : Config) (m : Mem) : Prop :=
  ∀ x, cfg.smallStart ≤ x → x < cfg.smallEnd → m x = 0#8

theorem initSliders_frame (cfg : Config) (m : Mem) (k x : Nat)
    (hx : ∀ b, b < k → x < cfg.blockAddr b ∨ cfg.blockAddr b + 8 ≤ x) :
    (List.range k).foldl (fun m i =>
      store64 m (getSliderPositionAddr (cfg.blockAddr i)) (cfg.blockAddr i + blockHeaderSize)) m x =
      m x := by
  induction k with
  | zero => rfl
  | succ k ih =>
    have hk := hx k (by omega)
    rw [List.range_succ, List.foldl_append, List.foldl_cons, List.foldl_nil,
      store_slider_frame (h := by omega), ih fun b hb => hx b (by omega)]

/-- Only sliders are written before the first call. -/
theorem init_zero {m : Mem} (hm : ZeroedSmallHeap cfg m) {b x : Nat} (hb : b < cfg.blocksCount)
    (hlo : cfg.blockAddr b + 8 ≤ x) (hhi : x < cfg.blockAddr b + blockSize) :
    (initSmallAllocator cfg m).mem x = 0#8 := by
  have hend := cfg.blockAddr_end_le hb
  have hstart : cfg.smallStart ≤ cfg.blockAddr b := by
    simp only [Config.blockAddr]
    omega
  have hframe : (initSmallAllocator cfg m).mem x = m x := by
    refine initSliders_frame cfg m cfg.blocksCount x fun c hc => ?_
    by_cases hcb : c = b
    · subst hcb
      exact Or.inr hlo
    · have hap := cfg.blockAddr_ne hcb
      simp only [blockSize] at *
      omega
  rw [hframe]
  exact hm x (by omega) (by omega)

theorem init_headerSize {m : Mem} (hm : ZeroedSmallHeap cfg m) {b : Nat}
    (hb : b < cfg.blocksCount) : headerSize cfg (initSmallAllocator cfg m).mem b = 0 := by
  refine load64_eq_zero.mpr fun i hi => init_zero hm hb ?_ ?_
  · simp only [getObjectSizeAddr]
    omega
  · simp only [getObjectSizeAddr, blockSize]
    omega

theorem init_empty_list (cfg : Config) (m : Mem) :
    ListOf (initSmallAllocator cfg m).nextNode (initSmallAllocator cfg m).emptyListHead
      fun b => b < cfg.blocksCount := by
  have hpos := cfg.blocksCount_pos
  -- the links from block `i` on run through the blocks above
  have hfrom : ∀ k i, i + k = cfg.blocksCount → LinkedList.IsList
      (initSmallAllocator cfg m).nextNode (if i < cfg.blocksCount then some i else none)
      (List.range' i k) := by
    intro k
    induction k with
    | zero =>
      intro i hi
      simp [List.range', show ¬ i < cfg.blocksCount by omega]
    | succ k ih =>
      intro i hi
      rw [List.range'_succ, IsList.cons_iff, if_pos (by omega)]
      refine ⟨rfl, ?_⟩
      have hnext : (initSmallAllocator cfg m).nextNode i =
          if i + 1 < cfg.blocksCount then some (i + 1) else none := by
        simp only [initSmallAllocator]
        by_cases hlast : i = cfg.blocksCount - 1
        · rw [if_neg (by omega), if_neg (by omega)]
        · rw [if_pos hlast, if_pos (by omega)]
      rw [hnext]
      exact ih (i + 1) (by omega)
  refine ⟨List.range' 0 cfg.blocksCount, ?_, fun b => ?_⟩
  · have := hfrom cfg.blocksCount 0 (by omega)
    rwa [if_pos hpos] at this
  · simp

/-- After initialisation the empty list owns all blocks. -/
theorem init_owned {m : Mem} (hm : ZeroedSmallHeap cfg m) (hidle : ∀ t, (th t).pc = .idle)
    (hcache : ∀ t n, (th t).nodesCache n = none) :
    Owned cfg (initSmallAllocator cfg m) th fun _ => .empty where
  empty := (init_empty_list cfg m).congr fun b => by simp
  segreg := fun n _ => ListOf.nil.congr fun b => by simp
  next_lt := by
    intro b c hb hc
    exact (init_empty_list cfg m).next_mem hb hc
  cached := by
    intro t n b hc
    rw [hcache t n] at hc
    cases hc
  working := by
    intro t
    simp only [Working, hidle t]
  header := fun _ _ => trivial
  sizes := fun b hb => by rw [init_headerSize hm hb]; exact Nat.zero_le _

end Rest

end GarbageCollector
