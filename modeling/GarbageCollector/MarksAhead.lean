import GarbageCollector.QuietHeap
import GarbageCollector.SlotShield

/-!
# Marks ahead of the sliders

A thread that walks through its block clears the marks that it passes, so that every mark bit of a
whole slot lies in a listed block or ahead of the walk of the thread that owns the block.
-/

namespace GarbageCollector

open Bytes LinkedList

variable {T : Type}

/-- No bit of the bitmap is set. -/
def NoMarks (cfg : Config) (m : Mem) (b : Nat) : Prop :=
  ∀ j, j < 8 * bitmapBytesCount → markBit cfg m b j = false

/-- The walk through a block of the owner's has not passed its slot `j`. -/
def AheadOfWalk (cfg : Config) (s : SmallHeap) (th : T → Local) (b j : Nat) : Place T → Prop
  | .owned t n => slider cfg s.mem b ≤ cfg.slotAddr b n j ∧
      ∀ sl c, (th t).pc = .examine n b sl c → sl ≤ cfg.slotAddr b n j
  | .abandoned => False
  | _ => True

section Step

variable [DecidableEq T] {cfg : Config} {s s' : SmallHeap} {th : T → Local} {place : Nat → Place T}
  {t : T} {l' : Local} {b n j : Nat}

/-- The walk of the acting thread is not in block `b` after the step. -/
theorem AheadOfWalk.keep {p : Place T} (ha : AheadOfWalk cfg s th b j p)
    (hsl : slider cfg s'.mem b = slider cfg s.mem b)
    (hpc : ∀ m sl c, l'.pc ≠ .examine m b sl c) :
    AheadOfWalk cfg s' (Function.update th t l') b j p := by
  cases p with
  | owned u n =>
    refine ⟨hsl.trans_le ha.1, fun sl c he => ?_⟩
    by_cases hu : u = t
    · rw [hu, Function.update_self] at he
      exact absurd he (hpc n sl c)
    · rw [Function.update_of_ne hu] at he
      exact ha.2 sl c he
  | _ => exact ha

/-- A slot of a block of the acting thread. -/
theorem aheadOfWalk_self (hsl : slider cfg s'.mem b ≤ cfg.slotAddr b n j)
    (hpc : ∀ sl c, l'.pc = .examine n b sl c → sl ≤ cfg.slotAddr b n j) :
    AheadOfWalk cfg s' (Function.update th t l') b j (.owned t n) := by
  refine ⟨hsl, ?_⟩
  rw [Function.update_self]
  exact hpc

/-- Between calls no walk is in a block. -/
theorem AheadOfWalk.turn {p : Place T} {pc : Pc} (ha : AheadOfWalk cfg s th b j p)
    (hnew : pc.atRest ∨ ∃ m, pc = .enter m) :
    AheadOfWalk cfg s (Function.update th t ((th t).goto pc)) b j p := by
  refine ha.keep rfl fun m sl c he => ?_
  rw [Local.goto_pc] at he
  rw [he] at hnew
  rcases hnew with hnew | ⟨m, hnew⟩
  · exact hnew
  · cases hnew

/-- A slot that starts at the walk's position or behind it ends before the block does. -/
theorem not_ahead_of_full {sl : Nat} (hn : InRange n) (hj : j < slotCount n)
    (hsl : sl ≤ cfg.slotAddr b n j) :
    sl + getSizeWithAlignment n ≤ cfg.blockAddr b + blockSize := by
  have hend := (cfg.lt_slotCount_iff (i := b) hn.1).mp hj
  rw [cfg.slotAddr_succ] at hend
  omega

/-- A thread that turns to block `c` is not in the other blocks. -/
theorem AheadOfWalk.examine {p : Place T} {m c sl : Nat} {cached : Bool}
    (ha : AheadOfWalk cfg s th b j p) (hsl : slider cfg s'.mem b = slider cfg s.mem b)
    (hbc : b ≠ c) :
    AheadOfWalk cfg s' (Function.update th t ((th t).goto (.examine m c sl cached))) b j p := by
  refine ha.keep hsl fun m' sl' ch he => hbc ?_
  rw [Local.goto_pc, Pc.examine.injEq] at he
  exact he.2.1.symm

/-- The walk stands at `sl` in the thread's own block. -/
theorem aheadOfWalk_examine {sl : Nat} {cached : Bool}
    (hslider : slider cfg s'.mem b ≤ cfg.slotAddr b n j) (hsl : sl ≤ cfg.slotAddr b n j) :
    AheadOfWalk cfg s' (Function.update th t ((th t).goto (.examine n b sl cached))) b j
      (.owned t n) := by
  refine aheadOfWalk_self hslider fun sl' ch he => ?_
  rw [Local.goto_pc, Pc.examine.injEq] at he
  rw [← he.2.2.1]
  exact hsl

/-- A set bit from slot `k` on, where the bit of slot `k` is clear, is behind slot `k`. -/
theorem slot_behind {m : Mem} {k : Nat} (hn : InRange n)
    (hle : cfg.slotAddr b n k ≤ cfg.slotAddr b n j)
    (hclear : markBit cfg m b k = false) (hbit : markBit cfg m b j = true) : k < j := by
  by_contra hge
  have heq := le_antisymm hle (cfg.slotAddr_mono (Nat.le_of_not_lt hge))
  rw [← cfg.slotAddr_inj hn.1 heq, hclear] at hbit
  cases hbit

/-- The bit that the walk clears is the one it passes. -/
theorem aheadOfWalk_skip {sl : Nat} {cached : Bool} (h : Owned cfg s th place)
    (hpc : (th t).pc = .examine n b sl cached)
    (hroom : sl + getSizeWithAlignment n ≤ cfg.blockAddr b + blockSize)
    (ha : AheadOfWalk cfg s th b j (.owned t n))
    (hbit : markBit cfg (setBitByAddress cfg s.mem sl 0#8) b j = true) :
    AheadOfWalk cfg (s.setMem (setBitByAddress cfg s.mem sl 0#8))
      (Function.update th t
        ((th t).goto (.examine n b (sl + getSizeWithAlignment n) cached))) b j (.owned t n) := by
  obtain ⟨hn, -, hc, hplace, k, hk, rfl, -⟩ := h.at t hpc
  have hsize : headerSize cfg s.mem b = n := (hplace ▸ h.header b hc).2.1
  have hsame := clearBit_same (m := s.mem) hn hc hroom
  have hk' : k < slotCount n := (slot_room rfl hn).mp hroom
  have hkbits : k < 8 * bitmapBytesCount := hk'.trans (slotCount_lt hn.1)
  have hclear : markBit cfg (setBitByAddress cfg s.mem (cfg.slotAddr b n k) 0#8) b k = false := by
    rw [markBit_clearBit hn hsize hroom hkbits, if_pos ⟨rfl, rfl⟩]
  have hkj : k < j := slot_behind hn (ha.2 _ cached hpc) hclear hbit
  refine aheadOfWalk_examine (hsame.slider.trans_le ha.1) ?_
  rw [← cfg.slotAddr_succ]
  exact cfg.slotAddr_mono hkj

omit [DecidableEq T] in
/-- The slot given out is unmarked, so that a marked one comes behind it and the block has room. -/
theorem ahead_of_finish (h : Owned cfg s th place) (hpc : (th t).pc = .finish n b)
    (hlt : j < slotCount n) (ha : AheadOfWalk cfg s th b j (.owned t n))
    (hbit : markBit cfg s.mem b j = true) :
    ¬ slider cfg s.mem b + getSizeWithAlignment n ≥ cfg.blockAddr b + blockSize ∧
      slider cfg s.mem b + getSizeWithAlignment n ≤ cfg.slotAddr b n j := by
  obtain ⟨hn, -, hc, hplace, k, hk, hsl, hclear⟩ := h.at t hpc
  have hkj : k < j := slot_behind hn (hsl ▸ ha.1) hclear hbit
  have hle := cfg.slotAddr_mono (i := b) (n := n) hkj
  rw [Nat.succ_eq_add_one, cfg.slotAddr_succ, ← hsl] at hle
  have hend := not_ahead_of_full hn hlt hle
  have hpos := getSizeWithAlignment_pos hn.1
  exact ⟨by omega, hle⟩

/-- A mark bit of a whole slot that a step leaves is ahead of the walk through its block. -/
theorem LocalStep.aheadOfWalk (hs : LocalStep cfg s (th t) s' l') (h : Owned cfg s th place)
    (hlt : j < slotCount (headerSize cfg s.mem b)) (hp : (place b).inUse)
    (ha : AheadOfWalk cfg s th b j (place b)) (hbit : markBit cfg s'.mem b j = true) :
    AheadOfWalk cfg s' (Function.update th t l') b j (placeAfter cfg t s (th t) place b) := by
  have hj : j < 8 * bitmapBytesCount := hlt.trans (slotCount_lt (one_le_of_lt_slotCount hlt))
  cases hs with
  | @fromCache n c hpc hc =>
    simp only [placeAfter, hpc]
    by_cases hbc : b = c
    · subst hbc
      obtain ⟨-, -, hplace⟩ := h.cached t n b hc
      rw [hplace] at ha ⊢
      exact aheadOfWalk_examine ha.1 ha.1
    · exact ha.examine rfl hbc
  | @popSegreg n c hpc hh =>
    simp only [placeAfter, hpc, hh]
    obtain ⟨hn, -⟩ := h.at t hpc
    by_cases hbc : b = c
    · subst hbc
      obtain ⟨hb, hplace⟩ := (hh ▸ h.segreg n hn.lt).head_mem
      obtain ⟨-, hsl⟩ : HeaderAt cfg s.mem b (.segreg n : Place T) :=
        hplace ▸ h.header b hb
      have hle := cfg.slotAddr_mono (i := b) (n := n) (Nat.zero_le j)
      rw [Function.update_self]
      exact aheadOfWalk_examine (hsl.trans_le hle) (hsl.trans_le hle)
    · rw [Function.update_of_ne hbc]
      exact ha.examine rfl hbc
  | @popEmpty n c hpc hh =>
    simp only [placeAfter, hpc, hh]
    have hplace := (hh ▸ h.empty).head_mem.2
    have hbc : b ≠ c := by
      rintro rfl
      rw [hplace] at hp
      exact hp
    rw [Function.update_of_ne hbc]
    exact ha.keep rfl (by simp)
  | @init n c hpc =>
    obtain ⟨hn, -, hc, -⟩ := h.at t hpc
    rw [SmallHeap.setMem_mem, markBit_initHeader cfg _ hj] at hbit
    have hbc : b ≠ c := by
      rintro rfl
      rw [if_pos rfl] at hbit
      cases hbit
    simp only [placeAfter, hpc, Function.update_of_ne hbc]
    exact ha.keep (by simp [slider_initHeader cfg _ hc, hbc]) (by simp)
  | @found n c sl ch hpc hroom hclear =>
    obtain ⟨hn, -, hc, hplace, k, hk, hsl, -⟩ := h.at t hpc
    simp only [placeAfter, hpc, if_pos hroom]
    by_cases hbc : b = c
    · subst hbc
      rw [hplace] at ha ⊢
      refine aheadOfWalk_self ?_ (by simp)
      rw [SmallHeap.setMem_mem, slider_store_slider, if_pos rfl, hsl,
        Nat.mod_eq_of_lt (slotAddr_lt hc hn hk), ← hsl]
      exact ha.2 sl ch hpc
    · exact ha.keep (by simp [slider_store_slider, hbc]) (by simp)
  | @skip n c sl ch hpc hroom hset =>
    simp only [placeAfter, hpc, if_pos hroom]
    by_cases hbc : b = c
    · subst hbc
      obtain ⟨-, -, -, hplace, -⟩ := h.at t hpc
      rw [hplace] at ha ⊢
      exact aheadOfWalk_skip h hpc hroom ha hbit
    · obtain ⟨hn, -, hc, -, k, -, rfl, -⟩ := h.at t hpc
      exact ha.examine (clearBit_same (m := s.mem) hn hc hroom).slider hbc
  | @exhaustedCache n c sl hpc hroom | @exhausted n c sl hpc hroom =>
    obtain ⟨hn, -, hc, hplace, -⟩ := h.at t hpc
    simp only [placeAfter, hpc, if_neg hroom]
    have hbc : b ≠ c := by
      rintro rfl
      have hsize : headerSize cfg s.mem b = n := (hplace ▸ h.header b hc).2.1
      rw [hsize] at hlt
      rw [hplace] at ha
      exact hroom (not_ahead_of_full hn hlt (ha.2 _ _ hpc))
    rw [Function.update_of_ne hbc]
    exact ha.keep rfl (by simp)
  | @finish n c hpc =>
    obtain ⟨-, -, hc, hplace, -⟩ := h.at t hpc
    rw [SmallHeap.setMem_mem, markBit_store_slider _ _ _ _ _ hj] at hbit
    have hsize : headerSize cfg s.mem c = n := (hplace ▸ h.header c hc).2.1
    simp only [placeAfter, hpc]
    by_cases hbc : b = c
    · subst hbc
      rw [hsize] at hlt
      rw [hplace] at ha
      obtain ⟨hroom, hle⟩ := ahead_of_finish h hpc hlt ha hbit
      simp only [if_neg hroom, hplace]
      refine aheadOfWalk_self ?_ (by simp)
      rw [SmallHeap.setMem_mem, slider_store_slider, if_pos rfl]
      exact (Nat.mod_le _ _).trans hle
    · have hplaces : (if slider cfg s.mem c + getSizeWithAlignment n ≥ cfg.blockAddr c + blockSize
          then Function.update place c .abandoned else place) b = place b := by
        split
        · exact Function.update_of_ne hbc _ _
        · rfl
      rw [hplaces]
      exact ha.keep (by simp [slider_store_slider, hbc]) (by simp)
  | @fill n i c hpc =>
    simp only [placeAfter, hpc]
    refine ha.keep (slider_zeroBitmap cfg _) fun m sl ch he => ?_
    rw [Local.goto_pc] at he
    split at he <;> cases he
  | segregEmpty hpc hh | outOfBlocks hpc hh =>
    simp only [placeAfter, hpc, hh]
    exact ha.keep rfl (by simp)
  | noCache hpc | nextList hpc | enterList hpc | fillDone hpc =>
    simp only [placeAfter, hpc]
    exact ha.keep rfl (by simp)

end Step

end GarbageCollector
