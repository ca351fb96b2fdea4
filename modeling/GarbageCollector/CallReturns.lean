import GarbageCollector.SmallAllocator
import Mathlib.Data.List.Perm.Subperm

/-!
# Calls of the small allocator return

When every segregated list ends, `allocate_small_object` ends as well: the walk through a block
stops at the end of the block, each block of the list is walked through once, and the zeroing of the
bitmaps goes once through every list.
-/

namespace GarbageCollector.CallReturns

open LinkedList

/-- The steps of the call reach its return, with this bound on their number. -/
def Returns (cfg : Config) (fuel : Nat) (s : SmallHeap) (l : Local) : Prop :=
  ∃ p, localRun cfg fuel s l = some p

/-- Each segregated list ends, and its nodes are blocks of the heap. -/
def ListsEnd (cfg : Config) (s : SmallHeap) : Prop :=
  ∀ n, n < objectSizeUpperBound →
    ∃ chain, IsList s.nextNode (s.segregList n) chain ∧ ∀ b ∈ chain, b < cfg.blocksCount

/-- Enough to zero the bitmaps of all lists. -/
def fillDepth (cfg : Config) : Nat := objectSizeUpperBound * (cfg.blocksCount + 1) + 2

/-- Enough for a call: the walk through a block ends before the end of the heap. -/
def callDepth (cfg : Config) : Nat :=
  (cfg.blocksCount + 1) * (cfg.smallEnd + 5) + fillDepth cfg + 2

section Steps

variable {cfg : Config} {s s' : SmallHeap} {l l' : Local} {n i b sl fuel fuel' k : Nat}
  {c : Bool} {res : Option Nat} {chain : List Nat}

theorem length_le_blocksCount {head : Option Nat} (hc : IsList s.nextNode head chain)
    (hblocks : ∀ b ∈ chain, b < cfg.blocksCount) : chain.length ≤ cfg.blocksCount := by
  have hsub : chain ⊆ List.range cfg.blocksCount := fun b hb => List.mem_range.mpr (hblocks b hb)
  simpa using (List.subperm_of_subset hc.nodup hsub).length_le

theorem localRun_succ {p : SmallHeap × Local × Option Nat} (h : localRun cfg fuel s l = some p) :
    localRun cfg (fuel + 1) s l = some p := by
  induction fuel generalizing s l with
  | zero => cases h
  | succ fuel ih =>
    cases hpc : l.pc with
    | returned n res =>
      simp only [localRun, hpc] at h ⊢
      exact h
    | _ =>
      simp only [localRun, hpc] at h
      obtain ⟨⟨s₁, l₁⟩, hstep, hrest⟩ := Option.bind_eq_some_iff.mp h
      rw [localRun, hpc]
      simp only [hstep, Option.bind_some]
      exact ih hrest

theorem localRun_mono {p : SmallHeap × Local × Option Nat}
    (h : localRun cfg fuel s l = some p) (hle : fuel ≤ fuel') :
    localRun cfg fuel' s l = some p := by
  induction hle with
  | refl => exact h
  | step _ ih => exact localRun_succ ih

theorem Returns.mono (h : Returns cfg fuel s l) (hle : fuel ≤ fuel') : Returns cfg fuel' s l := by
  obtain ⟨p, hp⟩ := h
  exact ⟨p, localRun_mono hp hle⟩

theorem Returns.of_step (hs : localStep cfg s l = some (s', l')) (h : Returns cfg k s' l')
    (hle : k + 1 ≤ fuel) : Returns cfg fuel s l := by
  obtain ⟨p, h⟩ := h
  refine Returns.mono ⟨p, ?_⟩ hle
  cases hpc : l.pc with
  | returned n res =>
    simp only [localStep, hpc] at hs
    cases hs
  | _ =>
    simp only [localRun, hpc, hs, Option.bind_some]
    exact h

theorem returned_returns (hpc : l.pc = .returned n res) : Returns cfg 1 s l :=
  ⟨(s, l, res), by simp only [localRun, hpc]⟩

theorem finish_returns (hpc : l.pc = .finish n b) : Returns cfg 2 s l := by
  refine .of_step (k := 1) (by simp only [localStep, hpc]; rfl) ?_ (le_refl _)
  exact returned_returns rfl

theorem initHeader_returns (hpc : l.pc = .initHeader n b) : Returns cfg 3 s l := by
  refine .of_step (k := 2) (by simp only [localStep, hpc]; rfl) ?_ (le_refl _)
  exact finish_returns rfl

/-- The rest of one list is zeroed, one step for each block. -/
theorem fillNode_returns (hc : IsList s.nextNode (some b) chain) (hpc : l.pc = .fillNode n i b)
    (hrest : ∀ m l', l'.pc = .fillList n (i + 1) → Returns cfg k (s.setMem m) l')
    (hle : chain.length + k ≤ fuel) : Returns cfg fuel s l := by
  induction chain generalizing s l b fuel with
  | nil => cases hc
  | cons a chain ih =>
    obtain ⟨ha, hnext⟩ := hc
    cases ha
    rw [List.length_cons] at hle
    refine .of_step (k := chain.length + k) (by simp only [localStep, hpc]; rfl) ?_ (by omega)
    cases hb : s.nextNode a with
    | none => exact (hrest _ _ rfl).mono (by omega)
    | some d =>
      rw [hb] at hnext
      exact ih hnext rfl (fun m l' hl' => hrest m l' hl') (le_refl _)

theorem fillList_returns (hends : ListsEnd cfg s) (hpc : l.pc = .fillList n i) :
    Returns cfg ((objectSizeUpperBound - i) * (cfg.blocksCount + 1) + 2) s l := by
  induction hd : objectSizeUpperBound - i generalizing s l i with
  | zero =>
    have hi : ¬ i < objectSizeUpperBound := by omega
    refine .of_step (k := 1) (by simp only [localStep, hpc, if_neg hi]; rfl) ?_ (by omega)
    exact returned_returns rfl
  | succ d ih =>
    have hi : i < objectSizeUpperBound := by omega
    rw [Nat.succ_mul]
    cases hh : s.segregList i with
    | none =>
      refine .of_step (k := d * (cfg.blocksCount + 1) + 2)
        (by simp only [localStep, hpc, if_pos hi, hh]; rfl) ?_ (by omega)
      exact ih hends rfl (by omega)
    | some b =>
      obtain ⟨chain, hchain, hblocks⟩ := hends i hi
      have hlen := length_le_blocksCount hchain hblocks
      rw [hh] at hchain
      refine .of_step (k := chain.length + (d * (cfg.blocksCount + 1) + 2))
        (by simp only [localStep, hpc, if_pos hi, hh]; rfl) ?_ (by omega)
      refine fillNode_returns hchain rfl (fun m l' hl' => ?_) (le_refl _)
      exact ih (s := s.setMem m) hends hl' (by omega)

theorem takeEmpty_returns (hends : ListsEnd cfg s) (hpc : l.pc = .takeEmpty n) :
    Returns cfg (fillDepth cfg + 1) s l := by
  cases hh : s.emptyListHead with
  | none =>
    refine .of_step (k := fillDepth cfg)
      (by simp only [localStep, hpc, allocateNewBlock, hh]; rfl) ?_ (le_refl _)
    have hle := Nat.mul_le_mul_right (cfg.blocksCount + 1) (Nat.sub_le objectSizeUpperBound 1)
    exact (fillList_returns (i := 1) hends rfl).mono (Nat.add_le_add_right hle 2)
  | some b =>
    refine .of_step (k := 3) (by simp only [localStep, hpc, allocateNewBlock, hh]; rfl) ?_ ?_
    · exact initHeader_returns rfl
    · have hpos := Nat.mul_le_mul_left objectSizeUpperBound (Nat.succ_pos cfg.blocksCount)
      simp only [fillDepth, objectSizeUpperBound, maxObjectSize] at hpos ⊢
      omega

/-- The walk gets nearer to the end of the block with every slot. -/
theorem examine_returns (hn : 1 ≤ n) (hpc : l.pc = .examine n b sl c)
    (hrest : ∀ m l', l'.pc = .takeSegreg n → Returns cfg k (s.setMem m) l')
    (hle : cfg.blockAddr b + blockSize - sl + 3 + k ≤ fuel) : Returns cfg fuel s l := by
  have hpos := getSizeWithAlignment_pos hn
  induction hd : cfg.blockAddr b + blockSize - sl using Nat.strong_induction_on
    generalizing s l sl fuel with
  | _ d ih =>
    by_cases hroom : sl + getSizeWithAlignment n ≤ cfg.blockAddr b + blockSize
    · by_cases hbit : getBitByAddress cfg s.mem sl = 0#8
      · refine .of_step (k := 2)
          (by simp only [localStep, hpc, if_pos hroom, if_pos hbit]; rfl) ?_ (by omega)
        exact finish_returns rfl
      · have hnear : cfg.blockAddr b + blockSize - (sl + getSizeWithAlignment n) < d := by omega
        refine .of_step (k := fuel - 1)
          (by simp only [localStep, hpc, if_pos hroom, if_neg hbit]; rfl) ?_ (by omega)
        exact ih _ hnear rfl (fun m l' hl' => hrest m l' hl') (by omega) rfl
    · cases c with
      | true =>
        refine .of_step (k := k)
          (by simp only [localStep, hpc, if_neg hroom, if_pos]; rfl) ?_ (by omega)
        exact hrest s.mem _ rfl
      | false =>
        refine .of_step (k := k)
          (by simp only [localStep, hpc, if_neg hroom, if_neg Bool.false_ne_true]; rfl) ?_
          (by omega)
        exact hrest s.mem _ rfl

theorem ListsEnd.pop (hends : ListsEnd cfg s) (hchain : IsList s.nextNode (s.nextNode b) chain)
    (hblocks : ∀ b ∈ chain, b < cfg.blocksCount) :
    ListsEnd cfg { s with segregList := Function.update s.segregList n (s.nextNode b) } := by
  intro m hm
  by_cases hmn : m = n
  · subst hmn
    simp only [Function.update_self]
    exact ⟨chain, hchain, hblocks⟩
  · simp only [Function.update_of_ne hmn]
    exact hends m hm

/-- The list gets shorter with every block. -/
theorem takeSegreg_returns (hn : 1 ≤ n) (hends : ListsEnd cfg s)
    (hchain : IsList s.nextNode (s.segregList n) chain)
    (hblocks : ∀ b ∈ chain, b < cfg.blocksCount) (hpc : l.pc = .takeSegreg n) :
    Returns cfg (chain.length * (cfg.smallEnd + 5) + fillDepth cfg + 2) s l := by
  induction chain generalizing s l with
  | nil =>
    have hh : s.segregList n = none := hchain
    refine .of_step (k := fillDepth cfg + 1)
      (by simp only [localStep, hpc, getBlockFromSegregList, hh]; rfl) ?_ (by simp)
    exact takeEmpty_returns hends rfl
  | cons b chain ih =>
    obtain ⟨hh, hnext⟩ := hchain
    have hend := cfg.blockAddr_end_le (hblocks b List.mem_cons_self)
    have hrest : ∀ b ∈ chain, b < cfg.blocksCount := fun c hc =>
      hblocks c (List.mem_cons_of_mem b hc)
    rw [List.length_cons, Nat.succ_mul]
    refine .of_step (k := chain.length * (cfg.smallEnd + 5) + fillDepth cfg + 2 + cfg.smallEnd + 4)
      (by simp only [localStep, hpc, getBlockFromSegregList, hh]; rfl) ?_ (by omega)
    refine examine_returns (k := chain.length * (cfg.smallEnd + 5) + fillDepth cfg + 2) hn rfl
      (fun m l' hl' => ih ?_ ?_ hrest hl') (by omega)
    · exact hends.pop hnext hrest
    · simp only [SmallHeap.setMem, Function.update_self]
      exact hnext

/-- A call returns. -/
theorem enter_returns (hn : 1 ≤ n) (hlt : n < objectSizeUpperBound) (hends : ListsEnd cfg s)
    (hcache : ∀ b, l.nodesCache n = some b → b < cfg.blocksCount) (hpc : l.pc = .enter n) :
    Returns cfg (callDepth cfg) s l := by
  obtain ⟨chain, hchain, hblocks⟩ := hends n hlt
  have hmul := Nat.mul_le_mul_right (cfg.smallEnd + 5) (length_le_blocksCount hchain hblocks)
  have hsucc := Nat.add_one_mul cfg.blocksCount (cfg.smallEnd + 5)
  have hsegreg : ∀ m l', l'.pc = .takeSegreg n →
      Returns cfg (cfg.blocksCount * (cfg.smallEnd + 5) + fillDepth cfg + 2) (s.setMem m) l' :=
    fun m l' hl' =>
      (takeSegreg_returns (s := s.setMem m) hn hends hchain hblocks hl').mono (by omega)
  cases hc : l.nodesCache n with
  | none =>
    refine .of_step (k := cfg.blocksCount * (cfg.smallEnd + 5) + fillDepth cfg + 2)
      (by simp only [localStep, hpc, hc]; rfl) ?_ (by simp only [callDepth]; omega)
    exact hsegreg s.mem _ rfl
  | some b =>
    have hend := cfg.blockAddr_end_le (hcache b hc)
    refine .of_step
      (k := cfg.blocksCount * (cfg.smallEnd + 5) + fillDepth cfg + 2 + cfg.smallEnd + 3)
      (by simp only [localStep, hpc, hc]; rfl) ?_ (by simp only [callDepth]; omega)
    exact examine_returns hn rfl (fun m l' hl' => hsegreg m l' hl') (by omega)

/-- More fuel does not change the outcome of a call. -/
theorem allocateSmallObject_mono {cache : NodesCache} {p : SmallHeap × NodesCache × Option Nat}
    (h : allocateSmallObject cfg fuel s cache n = some p) (hle : fuel ≤ fuel') :
    allocateSmallObject cfg fuel' s cache n = some p := by
  obtain ⟨q, hrun, hp⟩ := Option.map_eq_some_iff.mp h
  exact Option.map_eq_some_iff.mpr ⟨q, localRun_mono hrun hle, hp⟩

theorem allocateSmallObject_returns {cache : NodesCache} (hn : 1 ≤ n)
    (hlt : n < objectSizeUpperBound) (hends : ListsEnd cfg s)
    (hcache : ∀ b, cache n = some b → b < cfg.blocksCount) (hle : callDepth cfg ≤ fuel) :
    ∃ p, allocateSmallObject cfg fuel s cache n = some p := by
  obtain ⟨p, hrun⟩ : Returns cfg fuel s ⟨.enter n, cache⟩ :=
    (enter_returns hn hlt hends hcache rfl).mono hle
  exact ⟨_, Option.map_eq_some_iff.mpr ⟨p, hrun, rfl⟩⟩

end Steps

end GarbageCollector.CallReturns
