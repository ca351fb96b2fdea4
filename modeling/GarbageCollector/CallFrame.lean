import GarbageCollector.CollectorInvariant

/-!
# The bytes that a call of `gc_malloc` writes

An attempt of the small allocator, `mark` and `sweep` write to block headers only. The trees of
the large allocator lie outside the memory of the heaps.
-/

namespace GarbageCollector

open Bytes Collector

/-- A byte of a block header. -/
def HeaderByte (cfg : Config) (x : Nat) : Prop :=
  ∃ b, b < cfg.blocksCount ∧ cfg.blockAddr b ≤ x ∧ x < cfg.blockAddr b + blockHeaderSize

/-- A change of block headers only. -/
def SameOutsideHeaders (cfg : Config) (m m' : Mem) : Prop :=
  ∀ x, ¬ HeaderByte cfg x → m' x = m x

section Frame

variable {cfg : Config} {m m' m'' : Mem} {s s' s₀ : SmallHeap} {l l' : Local}
  {place place₀ : Nat → Place (Fin 1)} {cache cache' : NodesCache} {b n v x fuel : Nat}
  {res : Option Nat}

theorem SameOutsideHeaders.refl (m : Mem) : SameOutsideHeaders cfg m m := fun _ _ => rfl

theorem SameOutsideHeaders.trans (h : SameOutsideHeaders cfg m m')
    (h' : SameOutsideHeaders cfg m' m'') : SameOutsideHeaders cfg m m'' :=
  fun x hx => (h' x hx).trans (h x hx)

theorem headerByte_of_inBitmap (hb : b < cfg.blocksCount) (hx : InBitmap cfg b x) :
    HeaderByte cfg x := by
  obtain ⟨hlo, hhi⟩ := hx
  simp only [getBitmapAddr, bitmapBytesCount] at hlo hhi
  exact ⟨b, hb, by omega, by simp only [blockHeaderSize]; omega⟩

theorem SameOutsideBitmaps.outside (h : SameOutsideBitmaps cfg m m') :
    SameOutsideHeaders cfg m m' :=
  fun x hx => h x fun _ hb hbit => hx (headerByte_of_inBitmap hb hbit)

theorem store_slider_outside (hb : b < cfg.blocksCount) :
    SameOutsideHeaders cfg m (store64 m (getSliderPositionAddr (cfg.blockAddr b)) v) := by
  intro x hx
  apply store_slider_frame
  by_contra hin
  exact hx ⟨b, hb, by omega, by simp only [blockHeaderSize]; omega⟩

theorem store_size_outside (hb : b < cfg.blocksCount) :
    SameOutsideHeaders cfg m (store64 m (getObjectSizeAddr (cfg.blockAddr b)) v) := by
  intro x hx
  apply store_size_frame
  by_contra hin
  exact hx ⟨b, hb, by omega, by simp only [blockHeaderSize]; omega⟩

theorem initHeader_outside (hb : b < cfg.blocksCount) :
    SameOutsideHeaders cfg m (initHeader cfg m b n) :=
  ((store_size_outside hb).trans (store_slider_outside hb)).trans (zeroBitmap_same hb).outside

/-- The five steps that write to the memory write to the header of the block at hand. -/
theorem LocalStep.outside (hs : LocalStep cfg s l s' l') (h : Solo cfg s l place) :
    SameOutsideHeaders cfg s.mem s'.mem := by
  cases hs with
  | init hpc =>
    obtain ⟨-, -, hb, -⟩ := h.owned.at 0 hpc
    exact initHeader_outside hb
  | found hpc hroom hbit =>
    obtain ⟨-, -, hb, -⟩ := h.owned.at 0 hpc
    exact store_slider_outside hb
  | skip hpc hroom hbit =>
    obtain ⟨hn, -, hb, -, k, -, rfl, -⟩ := h.owned.at 0 hpc
    exact (clearBit_same hn hb hroom).outside
  | finish hpc =>
    obtain ⟨-, -, hb, -⟩ := h.owned.at 0 hpc
    exact store_slider_outside hb
  | fill hpc =>
    have hb := h.owned.at 0 hpc
    exact (zeroBitmap_same hb).outside
  | _ => exact SameOutsideHeaders.refl _

theorem call_outside (h : Solo cfg s₀ ⟨.idle, cache⟩ place₀) (hn : InRange n)
    (hrun : allocateSmallObject cfg fuel s₀ cache n = some (s', cache', res)) :
    SameOutsideHeaders cfg s₀.mem s'.mem := by
  obtain ⟨place, -, hq⟩ := attempt_run (Q := fun s _ _ => SameOutsideHeaders cfg s₀.mem s.mem)
    h hn (SameOutsideHeaders.refl _)
    (fun s l s' l' place ha hq hs => hq.trans (hs.outside ha.solo)) hrun
  exact hq

theorem sweepSmallHeap_outside (cfg : Config) (s : SmallHeap) :
    SameOutsideHeaders cfg s.mem (sweepSmallHeap cfg s).mem := by
  intro x hx
  apply (sweepSmallHeap_swept cfg s).frame x
  intro b hb
  by_contra hin
  exact hx ⟨b, hb, by omega, by simp only [blockHeaderSize]; omega⟩

end Frame

section Calls

variable {cfg : Config} {roots : Roots cfg} {fuel n : Nat} {g g' : Gc} {res : Option Nat}

theorem allocate_outside (h : Between cfg g)
    (hrun : allocateNewObject cfg fuel g n = some (g', res)) :
    SameOutsideHeaders cfg g.heap.mem g'.heap.mem := by
  obtain ⟨place, hsolo⟩ := h.solo
  rw [allocateNewObject] at hrun
  split at hrun
  · rename_i hn
    obtain ⟨⟨small, cache, r⟩, hsmall, he⟩ := Option.map_eq_some_iff.mp hrun
    cases he
    exact call_outside hsolo hn hsmall
  · split at hrun
    · obtain ⟨⟨large, r⟩, -, he⟩ := Option.map_eq_some_iff.mp hrun
      cases he
      exact SameOutsideHeaders.refl _
    · cases hrun
      exact SameOutsideHeaders.refl _

theorem sweep_outside (hrun : sweep cfg fuel g = some g') :
    SameOutsideHeaders cfg g.heap.mem g'.heap.mem := by
  obtain ⟨large, -, rfl⟩ := Option.map_eq_some_iff.mp hrun
  exact sweepSmallHeap_outside cfg g.heap.small

/-- A call of `gc_malloc` writes to block headers only. -/
theorem gcMalloc_outside (h : Between cfg g)
    (hrun : gcMalloc cfg fuel roots.segments g n = some (g', res)) :
    SameOutsideHeaders cfg g.heap.mem g'.heap.mem := by
  rw [gcMalloc] at hrun
  split at hrun
  · cases hrun
    exact SameOutsideHeaders.refl _
  · obtain ⟨⟨g₁, res₁⟩, hfirst, hrun⟩ := Option.bind_eq_some_iff.mp hrun
    have h₁ : SameOutsideHeaders cfg g.heap.mem g₁.heap.mem := allocate_outside h hfirst
    cases res₁ with
    | some r =>
      cases hrun
      exact h₁
    | none =>
      obtain ⟨g₃, hcollect, hsecond⟩ := Option.bind_eq_some_iff.mp hrun
      obtain ⟨g₂, hmark, hsweep⟩ := Option.bind_eq_some_iff.mp hcollect
      obtain ⟨hmarked, hframe⟩ := stopAndMark_marked (allocate_between h hfirst) hmark
      have h₂ := hframe.same.mem.outside
      have h₃ := sweep_outside hsweep
      have h₄ := allocate_outside (sweep_between hmarked hsweep) hsecond
      exact ((h₁.trans h₂).trans h₃).trans h₄

end Calls

end GarbageCollector
