import GarbageCollector.FailedAllocation

/-!
# Slots over whole calls

A slot that is protected when a call of the small allocator starts is protected when it returns,
and the slot that the call returns overlaps none of them. A range is an address with the size asked
for.
-/

namespace GarbageCollector

open Bytes FailedAllocation
open ConcurrentAlloc (Apart answer answer_cases apart_of_slotsApart shielded_turn)

/-- A whole slot of a block for its size. -/
def Sited (cfg : Config) (m : Mem) (x : Nat × Nat) : Prop :=
  ∃ b k, b < cfg.blocksCount ∧ InRange x.2 ∧ k < slotCount x.2 ∧ headerSize cfg m b = x.2 ∧
    x.1 = cfg.slotAddr b x.2 k

/-- A slot that no call returns before the next collection. -/
def Protected (cfg : Config) (s : SmallHeap) (l : Local) (place : Nat → Place (Fin 1))
    (x : Nat × Nat) : Prop :=
  ∃ b k, x.1 = cfg.slotAddr b x.2 k ∧ Shielded cfg s (fun _ => l) place True b x.2 k

section Slots

variable {cfg : Config} {s s' s₀ : SmallHeap} {l l' : Local} {place place₀ : Nat → Place (Fin 1)}
  {cache cache' : NodesCache} {m m' : Mem} {h : Heap} {x y : Nat × Nat} {n fuel : Nat}
  {res : Option Nat}

theorem Protected.sited (hx : Protected cfg s l place x) : Sited cfg s.mem x := by
  obtain ⟨b, k, haddr, hsh⟩ := hx
  exact ⟨b, k, hsh.block, hsh.size, hsh.whole, hsh.header, haddr⟩

theorem Sited.congr (hx : Sited cfg m x)
    (same : ∀ b, b < cfg.blocksCount → headerSize cfg m b = x.2 → headerSize cfg m' b = x.2) :
    Sited cfg m' x := by
  obtain ⟨b, k, hb, hn, hk, hsize, haddr⟩ := hx
  exact ⟨b, k, hb, hn, hk, same b hb hsize, haddr⟩

/-- The slot that `get_object` finds at the address. -/
theorem Sited.slotStart (hx : Sited cfg h.mem x) :
    ∃ b k, SlotStart cfg h b k x.1 ∧ k < slotCount x.2 ∧ headerSize cfg h.mem b = x.2 := by
  obtain ⟨b, k, hb, hn, hk, hsize, haddr⟩ := hx
  have hend := (cfg.lt_slotCount_iff (i := b) hn.1).mp hk
  have hpos := getSizeWithAlignment_pos hn.1
  rw [cfg.slotAddr_succ, ← haddr] at hend
  exact ⟨b, k, ⟨hb, hsize.symm ▸ hn, hsize.symm ▸ haddr, by omega⟩, hk, hsize⟩

theorem Sited.inSmall (hx : Sited cfg h.mem x) : cfg.InSmall x.1 := by
  obtain ⟨b, k, hs, -, -⟩ := hx.slotStart
  exact hs.inSmall

/-- Slots of two blocks, or two slots of one block. -/
theorem Sited.apart (hx : Sited cfg m x) (hy : Sited cfg m y) (hne : x.1 ≠ y.1) : Apart x y := by
  obtain ⟨b, k, -, hn, hk, hsize, haddr⟩ := hx
  obtain ⟨b', k', -, hn', hk', hsize', haddr'⟩ := hy
  have hslots : SlotsApart cfg b x.2 k b' y.2 k' := by
    by_cases hb : b = b'
    · subst hb
      have hxy : x.2 = y.2 := hsize.symm.trans hsize'
      rw [hxy] at haddr ⊢
      apply slotsApart_of_index_ne
      rintro rfl
      exact hne (haddr.trans haddr'.symm)
    · exact slotsApart_of_ne hb hn hn' hk hk'
  have hap := apart_of_slotsApart hslots
  rwa [← haddr, ← haddr'] at hap

theorem LocalStep.protected (hs : LocalStep cfg s l s' l')
    (h : Owned cfg s (fun _ : Fin 1 => l) place) (hx : Protected cfg s l place x)
    (spares : ∀ m i b, l.pc = .fillNode m i b → ∀ k, k < slotCount (headerSize cfg s.mem b) →
      slider cfg s.mem b ≤ cfg.slotAddr b (headerSize cfg s.mem b) k →
      markBit cfg s.mem b k = false) :
    Protected cfg s' l' (placeAfter cfg 0 s l place) x := by
  have hstep : LocalStep cfg s ((fun _ : Fin 1 => l) 0) s' l' := hs
  obtain ⟨b, k, haddr, hsh⟩ := hx
  have hsh' := hstep.shielded (t := 0) h hsh fun _ m i hpc => by
    have hclear := spares m i b hpc k
    rw [hsh.header] at hclear
    by_cases hlt : cfg.slotAddr b x.2 k < slider cfg s.mem b
    · exact Or.inl hlt
    · exact Or.inr (hclear hsh.whole (by omega))
  rw [update_solo] at hsh'
  exact ⟨b, k, haddr, hsh'⟩

/-- The slot that a step returns overlaps no protected slot, and it is protected from then on. -/
theorem LocalStep.answered (hs : LocalStep cfg s l s' l')
    (h : Owned cfg s (fun _ : Fin 1 => l) place) (hy : y ∈ answer l'.pc) :
    Protected cfg s' l' (placeAfter cfg 0 s l place) y ∧
      ∀ x, Protected cfg s l place x → Apart y x := by
  have hstep : LocalStep cfg s ((fun _ : Fin 1 => l) 0) s' l' := hs
  rcases answer_cases hs with hnone | ⟨m, c, hpc, hone⟩
  · rw [hnone] at hy
    cases hy
  · rw [hone, List.mem_singleton] at hy
    subst hy
    obtain ⟨j, -, -, -, hsl⟩ := h.finish_slot (t := 0) hpc
    constructor
    · have hsh : Shielded cfg s' _ (placeAfter cfg 0 s l place) True c m j :=
        h.finish_shielded (t := 0) hpc hstep hsl
      rw [update_solo] at hsh
      exact ⟨c, j, hsl, hsh⟩
    · rintro x ⟨b, k, haddr, hsh⟩
      have hap := apart_of_slotsApart (h.finish_apart (t := 0) hpc hsl hsh)
      rwa [← hsl, ← haddr] at hap

theorem Protected.turn (hx : Protected cfg s l place x) (hrest : l.pc.atRest) (p : Pc) :
    Protected cfg s (l.goto p) place x := by
  obtain ⟨b, k, haddr, hsh⟩ := hx
  refine ⟨b, k, haddr, ?_⟩
  have hturned : Shielded cfg s (Function.update (fun _ : Fin 1 => l) 0 (l.goto p)) place True b
      x.2 k := shielded_turn (s := soloState s l s.mem) (t := 0) hrest hsh
  rwa [update_solo] at hturned

/-- What is protected stays so over a call, unless it fails and zeroes a bitmap with a marked
slot. -/
theorem call_protects {xs : List (Nat × Nat)} (h : Solo cfg s₀ ⟨.idle, cache⟩ place₀)
    (hn : InRange n) (hx : ∀ x, x ∈ xs → Protected cfg s₀ ⟨.idle, cache⟩ place₀ x)
    (hother : res = none → NoOther cfg s₀.mem n)
    (hrun : allocateSmallObject cfg fuel s₀ cache n = some (s', cache', res)) :
    ∃ place, Solo cfg s' ⟨.idle, cache'⟩ place ∧
      (∀ x, x ∈ xs → Protected cfg s' ⟨.idle, cache'⟩ place x) ∧
      ∀ r, res = some r → Protected cfg s' ⟨.idle, cache'⟩ place (r, n) ∧
        ∀ x, x ∈ xs → Apart (r, n) x := by
  obtain ⟨place, ha, hq⟩ := attempt_run (Q := fun s l place =>
    (l.pc.filling → NoOther cfg s₀.mem n) → (∀ x, x ∈ xs → Protected cfg s l place x) ∧
      ∀ y, y ∈ answer l.pc → Protected cfg s l place y ∧ ∀ x, x ∈ xs → Apart y x) h hn
    (fun _ => ⟨fun x hmem => (hx x hmem).turn trivial (.enter n), fun _ hy => nomatch hy⟩)
    (fun s l s' l' place ha hq hs hfill => by
      have hfill' : l.pc.filling → NoOther cfg s₀.mem n := fun hf => hfill (hs.filling hf)
      have hspares : ConcurrentAlloc.SparesMarks cfg (soloState s l s.mem) (.step 0) :=
        spares_of_noOther ha h hfill'
      have hold := (hq hfill').1
      refine ⟨fun x hmem => ?_, fun y hy => ?_⟩
      · refine hs.protected ha.solo.owned (hold x hmem) fun m i b hpc => ?_
        simp only [ConcurrentAlloc.SparesMarks, hpc] at hspares
        exact hspares
      · obtain ⟨hnew, hap⟩ := hs.answered ha.solo.owned hy
        exact ⟨hnew, fun x hmem => hap x (hold x hmem)⟩) hrun
  obtain ⟨hkept, hanswer⟩ := hq fun hf => hother (by cases res; rfl; exact hf.elim)
  refine ⟨place, ha.solo.idle trivial, fun x hmem => (hkept x hmem).turn trivial .idle, ?_⟩
  rintro r rfl
  obtain ⟨hnew, hap⟩ := hanswer (r, n) (by simp [answer])
  exact ⟨hnew.turn trivial .idle, hap⟩

/-- A marked slot is protected after the sweep. -/
theorem swept_protected {b k : Nat} (hb : b < cfg.blocksCount) (hn : InRange x.2)
    (hk : k < slotCount x.2) (hsize : headerSize cfg s.mem b = x.2)
    (haddr : x.1 = cfg.slotAddr b x.2 k) (hbit : markBit cfg s.mem b k = true) :
    Protected cfg (sweepSmallHeap cfg s) ⟨.idle, fun _ => none⟩
      (sweptPlace cfg (Fin 1) s.mem) x := by
  have hj : k < 8 * bitmapBytesCount := hk.trans (slotCount_lt hn.1)
  have he := ConcurrentAlloc.not_empty_of_bit hj hbit
  refine ⟨b, k, haddr, hb, hn, hk, ?_, .marked trivial (Or.inl ?_) ?_⟩
  · rw [swept_headerSize hb hj hbit, hsize]
  · exact sweptPlace_segreg.mpr ⟨he, hsize⟩
  · rw [(sweepSmallHeap_swept cfg s).markBit hj]
    exact hbit

theorem Protected.setMem (hx : Protected cfg s l place x) (same : SameHeaders cfg s.mem m') :
    Protected cfg (s.setMem m') l place x := by
  obtain ⟨b, k, haddr, hsh⟩ := hx
  exact ⟨b, k, haddr, hsh.setMem same⟩

end Slots

end GarbageCollector
