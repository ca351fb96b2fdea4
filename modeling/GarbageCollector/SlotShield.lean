import GarbageCollector.BlockOwnership

/-!
# Why a slot is not given out again

A slot that is in use is protected in one of four ways: its block is out of every list and
cache, the slider has passed it, the thread that walks through the block has passed it, or
its mark bit stands. The last one can be lost when `fill_all_bitmaps_with_zeros` meets the
block, so the parameter `marks` says whether a result relies on it.
-/

namespace GarbageCollector

open Bytes

variable {T : Type}

/-- The four ways in which slot `k` of block `b` is protected. -/
inductive Reason (cfg : Config) (s : SmallHeap) (th : T → Local) (place : Nat → Place T)
    (marks : Prop) (b n k : Nat) : Prop where
  | gone (hp : place b = .abandoned)
  | passed {t : T} (hp : place b = .owned t n)
      (hle : cfg.slotAddr b n (k + 1) ≤ slider cfg s.mem b)
  | skipped {t : T} {sl : Nat} {c : Bool} (hp : place b = .owned t n)
      (hpc : (th t).pc = .examine n b sl c) (hle : cfg.slotAddr b n (k + 1) ≤ sl)
  | marked (hm : marks) (hp : place b = .segreg n ∨ ∃ t, place b = .owned t n)
      (hbit : markBit cfg s.mem b k = true)

/-- Slot `k` of block `b`, which serves size `n`, cannot be returned. -/
structure Shielded (cfg : Config) (s : SmallHeap) (th : T → Local) (place : Nat → Place T)
    (marks : Prop) (b n k : Nat) : Prop where
  block : b < cfg.blocksCount
  size : InRange n
  whole : k < slotCount n
  header : headerSize cfg s.mem b = n
  reason : Reason cfg s th place marks b n k

section Step

variable [DecidableEq T] {cfg : Config} {s s' : SmallHeap} {th : T → Local}
  {place : Nat → Place T} {t u : T} {l' : Local} {marks : Prop} {b n k : Nat}

/-- `t` zeroes no bitmap whose bit `k` still protects a slot. -/
def SparesBit (cfg : Config) (s : SmallHeap) (l : Local) (b n k : Nat) : Prop :=
  ∀ m i, l.pc = .fillNode m i b → cfg.slotAddr b n k < slider cfg s.mem b ∨
    markBit cfg s.mem b k = false

/-- The next slot starts where a slider beyond this one stands at least. -/
theorem passed_of_lt {sl k' : Nat} (hsl : sl = cfg.slotAddr b n k') (hn : InRange n)
    (hlt : cfg.slotAddr b n k < sl) : cfg.slotAddr b n (k + 1) ≤ sl := by
  rw [hsl, cfg.slotAddr_lt_iff hn.1] at hlt
  rw [hsl]
  exact cfg.slotAddr_mono hlt

omit [DecidableEq T] in
/-- Only the initialisation of a block writes its size. -/
theorem LocalStep.header_cases (hs : LocalStep cfg s (th t) s' l') (h : Owned cfg s th place)
    (b : Nat) : headerSize cfg s'.mem b = headerSize cfg s.mem b ∨
      ∃ m, (th t).pc = .initHeader m b := by
  cases hs with
  | @init m c hpc =>
    by_cases hbc : b = c
    · exact Or.inr ⟨m, hbc ▸ hpc⟩
    · obtain ⟨hm, -⟩ := h.at t hpc
      exact Or.inl (by simp [headerSize_initHeader cfg _ hm, hbc])
  | found hpc _ _ | finish hpc => exact Or.inl (by simp)
  | skip hpc hroom _ =>
    obtain ⟨hm, -, hlt, -, j, hj, rfl, -⟩ := h.at t hpc
    exact Or.inl (clearBit_same hm hlt hroom).headerSize
  | fill hpc => exact Or.inl (headerSize_zeroBitmap cfg _)
  | _ => exact Or.inl rfl

omit [DecidableEq T] in
/-- The header size of a block changes only when a fresh block is initialised. -/
theorem LocalStep.header_kept (hs : LocalStep cfg s (th t) s' l') (h : Owned cfg s th place)
    (hfresh : place b ≠ .fresh t) : headerSize cfg s'.mem b = headerSize cfg s.mem b := by
  rcases hs.header_cases h b with hsame | ⟨m, hpc⟩
  · exact hsame
  · obtain ⟨-, -, -, hplace⟩ := h.at t hpc
    exact absurd hplace hfresh

omit [DecidableEq T] in
/-- The slider of an owned block never moves back. -/
theorem LocalStep.slider_mono (hs : LocalStep cfg s (th t) s' l') (h : Owned cfg s th place)
    (hp : place b = .owned t n) : slider cfg s.mem b ≤ slider cfg s'.mem b := by
  cases hs with
  | @init m c hpc =>
    obtain ⟨-, -, hlt, hplace⟩ := h.at t hpc
    have hne : b ≠ c := by
      rintro rfl
      simp [hp] at hplace
    simp [slider_initHeader cfg _ hlt, hne]
  | @found m c sl ch hpc hroom hbit =>
    obtain ⟨hm, -, hlt, -, j, hj, hsl, hmono⟩ := h.at t hpc
    rw [SmallHeap.setMem_mem, slider_store_slider]
    split
    · rename_i heq
      rw [hsl, Nat.mod_eq_of_lt (slotAddr_lt hlt hm hj), ← hsl, heq]
      exact hmono
    · exact le_rfl
  | skip hpc hroom hbit =>
    obtain ⟨hm, -, hlt, -, j, hj, rfl, -⟩ := h.at t hpc
    rw [SmallHeap.setMem_mem, (clearBit_same hm hlt hroom).slider]
  | @finish m c hpc =>
    obtain ⟨hm, -, hlt, -, j, hj, hsl, -⟩ := h.at t hpc
    rw [SmallHeap.setMem_mem, slider_store_slider]
    split
    · rename_i heq
      rw [heq, hsl, ← cfg.slotAddr_succ, Nat.mod_eq_of_lt (slotAddr_lt hlt hm hj)]
      exact cfg.slotAddr_mono (Nat.le_succ j)
    · exact le_rfl
  | fill hpc => rw [SmallHeap.setMem_mem, slider_zeroBitmap]
  | _ => exact le_rfl

/-- A slot of a block of `t` stays behind the slider, or its block is given up. -/
theorem LocalStep.passed_self (hs : LocalStep cfg s (th t) s' l') (h : Owned cfg s th place)
    (hp : place b = .owned t n) (hle : cfg.slotAddr b n (k + 1) ≤ slider cfg s.mem b) :
    Reason cfg s' (Function.update th t l') (placeAfter cfg t s (th t) place) marks b n k := by
  rcases (hs.moved h).owner h hp with howned | hgone
  · exact .passed howned (hle.trans (hs.slider_mono h hp))
  · exact .gone hgone

/-- A slot that `t` has walked past in its current block stays behind it. -/
theorem LocalStep.skipped_self (hs : LocalStep cfg s (th t) s' l') (h : Owned cfg s th place)
    {sl : Nat} {c : Bool} (hp : place b = .owned t n) (hpc : (th t).pc = .examine n b sl c)
    (hle : cfg.slotAddr b n (k + 1) ≤ sl) :
    Reason cfg s' (Function.update th t l') (placeAfter cfg t s (th t) place) marks b n k := by
  obtain ⟨hn, -, hlt, -, j, hj, hsl, -⟩ := h.at t hpc
  by_cases hroom : sl + getSizeWithAlignment n ≤ cfg.blockAddr b + blockSize
  · have hplace : placeAfter cfg t s (th t) place b = .owned t n := by
      simp only [placeAfter, hpc, if_pos hroom, hp]
    cases hs with
    | @found m d sl' ch hpc' hroom' hbit =>
      cases hpc.symm.trans hpc'
      refine .passed hplace ?_
      rw [SmallHeap.setMem_mem, slider_store_slider, if_pos rfl, hsl,
        Nat.mod_eq_of_lt (slotAddr_lt hlt hn hj), ← hsl]
      exact hle
    | @skip m d sl' ch hpc' hroom' hbit =>
      cases hpc.symm.trans hpc'
      have hpc₁ : (Function.update th t ((th t).goto (.examine n b
          (sl + getSizeWithAlignment n) c)) t).pc =
            .examine n b (sl + getSizeWithAlignment n) c := by
        rw [Function.update_self]
        rfl
      exact .skipped hplace hpc₁ (by omega)
    | exhaustedCache hpc' hroom' | exhausted hpc' hroom' =>
      cases hpc.symm.trans hpc'
      exact absurd hroom hroom'
    | _ hpc' => cases hpc.symm.trans hpc'
  · refine .gone ?_
    simp only [placeAfter, hpc, if_neg hroom, Function.update_self]

omit [DecidableEq T] in
/-- A mark bit of a whole slot goes only when a thread zeroes the bitmap, walks past the slot
or writes a fresh header. -/
theorem LocalStep.bit_kept (hs : LocalStep cfg s (th t) s' l') (h : Owned cfg s th place)
    (hk : k < 8 * bitmapBytesCount) (hbit : markBit cfg s.mem b k = true) :
    markBit cfg s'.mem b k = true ∨ (∃ m i, (th t).pc = .fillNode m i b) ∨
      place b = .fresh t ∨
      ∃ n c, place b = .owned t n ∧ l'.pc = .examine n b (cfg.slotAddr b n (k + 1)) c := by
  cases hs with
  | @init m c hpc =>
    obtain ⟨-, -, -, hplace⟩ := h.at t hpc
    by_cases hbc : b = c
    · exact Or.inr (Or.inr (Or.inl (hbc ▸ hplace)))
    · refine Or.inl ?_
      rw [SmallHeap.setMem_mem, markBit_initHeader cfg _ hk, if_neg hbc]
      exact hbit
  | found hpc hroom _ | finish hpc =>
    refine Or.inl ?_
    rw [SmallHeap.setMem_mem, markBit_store_slider _ _ _ _ _ hk]
    exact hbit
  | @skip m c sl ch hpc hroom _ =>
    obtain ⟨hm, -, hlt, hplace, j, hj, rfl, -⟩ := h.at t hpc
    have hsize : headerSize cfg s.mem c = m := (hplace ▸ h.header c hlt).2.1
    by_cases hhere : b = c ∧ k = j
    · refine Or.inr (Or.inr (Or.inr ⟨m, ch, hhere.1 ▸ hplace, ?_⟩))
      rw [hhere.1, hhere.2, cfg.slotAddr_succ]
      rfl
    · refine Or.inl ?_
      rw [SmallHeap.setMem_mem, markBit_clearBit hm hsize hroom hk, if_neg hhere]
      exact hbit
  | @fill m i c hpc =>
    by_cases hbc : b = c
    · exact Or.inr (Or.inl ⟨m, i, hbc ▸ hpc⟩)
    · refine Or.inl ?_
      rw [SmallHeap.setMem_mem, markBit_zeroBitmap hk, if_neg hbc]
      exact hbit
  | _ => exact Or.inl hbit

/-- A slot protected by its mark bit stays protected if `t` spares the bit. -/
theorem LocalStep.marked_kept (hs : LocalStep cfg s (th t) s' l') (h : Owned cfg s th place)
    (hsh : Shielded cfg s th place marks b n k) (hm : marks)
    (hp : place b = .segreg n ∨ ∃ u, place b = .owned u n) (hbit : markBit cfg s.mem b k = true)
    (spared : SparesBit cfg s (th t) b n k) :
    Reason cfg s' (Function.update th t l') (placeAfter cfg t s (th t) place) marks b n k := by
  have hk : k < 8 * bitmapBytesCount := hsh.whole.trans (slotCount_lt hsh.size.1)
  have hplace' : placeAfter cfg t s (th t) place b = .abandoned ∨
      (placeAfter cfg t s (th t) place b = .segreg n ∨
        ∃ u, placeAfter cfg t s (th t) place b = .owned u n) := by
    rcases hp with hp | ⟨u, hp⟩
    · rcases (hs.moved h).listed h hp with hseg | howned
      · exact Or.inr (Or.inl hseg)
      · exact Or.inr (Or.inr ⟨t, howned⟩)
    · by_cases hu : u = t
      · subst hu
        rcases (hs.moved h).owner h hp with howned | hgone
        · exact Or.inr (Or.inr ⟨u, howned⟩)
        · exact Or.inl hgone
      · exact Or.inr (Or.inr ⟨u, (hs.moved h).others h hp (Or.inr ⟨u, hu, rfl⟩)⟩)
  rcases hplace' with hgone | hplace'
  · exact .gone hgone
  rcases hs.bit_kept h hk hbit with hkept | ⟨m, i, hfill⟩ | hfresh | ⟨m, c, howned, hpc⟩
  · exact .marked hm hplace' hkept
  · rcases spared m i hfill with hlt | hclear
    · -- the slider of a listed block is at its start, so the block is owned
      rcases hp with hp | ⟨u, hp⟩
      · have hsl : slider cfg s.mem b = cfg.slotAddr b n 0 :=
          (hp ▸ h.header b hsh.block : HeaderAt cfg s.mem b (.segreg n : Place T)).2
        rw [hsl, cfg.slotAddr_lt_iff hsh.size.1] at hlt
        omega
      · obtain ⟨-, -, j, -, hsl⟩ : HeaderAt cfg s.mem b (.owned u n) := hp ▸ h.header b hsh.block
        have hle := passed_of_lt hsl hsh.size hlt
        have hslider : slider cfg s'.mem b = slider cfg s.mem b := by
          cases hs with
          | fill hpc => rw [SmallHeap.setMem_mem, slider_zeroBitmap]
          | _ hpc => cases hfill.symm.trans hpc
        have hstay : placeAfter cfg t s (th t) place b = .owned u n := by
          simp only [placeAfter, hfill, hp]
        exact .passed hstay (hle.trans_eq hslider.symm)
    · simp [hbit] at hclear
  · rcases hp with hp | ⟨u, hp⟩ <;> simp [hp] at hfresh
  · have hmn : m = n := by
      rcases hp with hp | ⟨u, hp⟩
      · simp [hp] at howned
      · rw [hp, Place.owned.injEq] at howned
        exact howned.2.symm
    subst hmn
    have hstay : placeAfter cfg t s (th t) place b = .owned t m := by
      rcases (hs.moved h).owner h howned with hstay | hgone
      · exact hstay
      · rcases hplace' with hp' | ⟨u, hp'⟩ <;> simp [hgone] at hp'
    exact .skipped hstay (by rw [Function.update_self]; exact hpc) le_rfl

/-- Every step keeps the protection of a slot whose bit it spares. -/
theorem LocalStep.shielded (hs : LocalStep cfg s (th t) s' l') (h : Owned cfg s th place)
    (hsh : Shielded cfg s th place marks b n k) (spared : marks → SparesBit cfg s (th t) b n k) :
    Shielded cfg s' (Function.update th t l') (placeAfter cfg t s (th t) place) marks b n k where
  block := hsh.block
  size := hsh.size
  whole := hsh.whole
  header := by
    refine (hs.header_kept h fun hfresh => ?_).trans hsh.header
    cases hsh.reason with
    | gone hp => simp [hp] at hfresh
    | passed hp _ => simp [hp] at hfresh
    | skipped hp _ _ => simp [hp] at hfresh
    | marked _ hp _ => rcases hp with hp | ⟨u, hp⟩ <;> simp [hp] at hfresh
  reason := by
    have hother : ∀ {u : T}, u ≠ t → place b = .owned u n →
        placeAfter cfg t s (th t) place b = .owned u n ∧
          slider cfg s'.mem b = slider cfg s.mem b := fun hu hp =>
      ⟨(hs.moved h).others h hp (Or.inr ⟨_, hu, rfl⟩), (hs.frame h (by rw [hp]; exact hu)).1⟩
    cases hsh.reason with
    | gone hp => exact .gone ((hs.moved h).others h hp (Or.inl rfl))
    | @passed u hp hle =>
      by_cases hu : u = t
      · subst hu
        exact hs.passed_self h hp hle
      · obtain ⟨hp', hsl⟩ := hother hu hp
        exact .passed hp' (hle.trans_eq hsl.symm)
    | @skipped u sl c hp hpc hle =>
      by_cases hu : u = t
      · subst hu
        exact hs.skipped_self h hp hpc hle
      · exact .skipped (hother hu hp).1 (by rw [Function.update_of_ne hu]; exact hpc) hle
    | marked hm hp hbit => exact hs.marked_kept h hsh hm hp hbit (spared hm)

omit [DecidableEq T] in
/-- The slot about to be returned. -/
theorem Owned.finish_slot {m c : Nat} (h : Owned cfg s th place) (hpc : (th t).pc = .finish m c) :
    ∃ j, c < cfg.blocksCount ∧ InRange m ∧ j < slotCount m ∧
      slider cfg s.mem c = cfg.slotAddr c m j := by
  obtain ⟨hm, -, hlt, -, j, hj, hsl, -⟩ := h.at t hpc
  exact ⟨j, hlt, hm, hj, hsl⟩

/-- Two slots that do not overlap, given as blocks, sizes and indices. -/
def SlotsApart (cfg : Config) (b n k b' n' k' : Nat) : Prop :=
  cfg.slotAddr b n (k + 1) ≤ cfg.slotAddr b' n' k' ∨
    cfg.slotAddr b' n' (k' + 1) ≤ cfg.slotAddr b n k

theorem slotsApart_of_ne {b' n' k' : Nat} (hb : b ≠ b') (hn : InRange n) (hn' : InRange n')
    (hk : k < slotCount n) (hk' : k' < slotCount n') : SlotsApart cfg b n k b' n' k' := by
  have hend := (cfg.lt_slotCount_iff (i := b) hn.1).mp hk
  have hend' := (cfg.lt_slotCount_iff (i := b') hn'.1).mp hk'
  have hlo := cfg.slotAddr_mono (i := b) (n := n) (Nat.zero_le k)
  have hlo' := cfg.slotAddr_mono (i := b') (n := n') (Nat.zero_le k')
  rw [cfg.slotAddr_zero] at hlo hlo'
  have hap := cfg.blockAddr_ne hb
  simp only [SlotsApart]
  omega

theorem slotsApart_of_index_ne {k' : Nat} (hne : k ≠ k') : SlotsApart cfg b n k b n k' := by
  rcases Nat.lt_or_gt_of_ne hne with hlt | hgt
  · exact Or.inl (cfg.slotAddr_mono hlt)
  · exact Or.inr (cfg.slotAddr_mono hgt)

omit [DecidableEq T] in
/-- The slot that a call returns overlaps no protected slot. -/
theorem Owned.finish_apart {m c j : Nat} (h : Owned cfg s th place)
    (hpc : (th t).pc = .finish m c) (hsl : slider cfg s.mem c = cfg.slotAddr c m j)
    (hsh : Shielded cfg s th place marks b n k) : SlotsApart cfg c m j b n k := by
  obtain ⟨hm, -, hlt, hplace, i, hi, hsl', hbit⟩ := h.at t hpc
  have hij : j = i := cfg.slotAddr_inj hm.1 (hsl.symm.trans hsl')
  subst hij
  by_cases hcb : c = b
  · subst hcb
    have hsize : headerSize cfg s.mem c = m := (hplace ▸ h.header c hlt).2.1
    have hmn : m = n := hsize.symm.trans hsh.header
    subst hmn
    cases hsh.reason with
    | gone hp => simp [hplace] at hp
    | passed hp hle => exact Or.inr (hsl ▸ hle)
    | @skipped u sl ch hp hpc' hle =>
      rw [hplace, Place.owned.injEq] at hp
      rw [← hp.1, hpc] at hpc'
      cases hpc'
    | marked hmk hp hset =>
      refine slotsApart_of_index_ne fun hjk => ?_
      rw [← hjk, hbit] at hset
      cases hset
  · exact slotsApart_of_ne hcb hm hsh.size hi hsh.whole

/-- From its return on a slot is protected without its mark bit. -/
theorem Owned.finish_shielded {m c j : Nat} (h : Owned cfg s th place)
    (hpc : (th t).pc = .finish m c) (hs : LocalStep cfg s (th t) s' l')
    (hsl : slider cfg s.mem c = cfg.slotAddr c m j) :
    Shielded cfg s' (Function.update th t l') (placeAfter cfg t s (th t) place) marks c m j := by
  obtain ⟨hm, -, hlt, hplace, i, hi, hsl', -⟩ := h.at t hpc
  have hij : j = i := cfg.slotAddr_inj hm.1 (hsl.symm.trans hsl')
  subst hij
  refine ⟨hlt, hm, hi, ?_, ?_⟩
  · rw [hs.header_kept h (by simp [hplace])]
    exact (hplace ▸ h.header c hlt).2.1
  · rcases (hs.moved h).owner h hplace with howned | hgone
    · refine .passed howned ?_
      cases hs with
      | @finish m' c' hpc' =>
        cases hpc.symm.trans hpc'
        rw [SmallHeap.setMem_mem, slider_store_slider, if_pos rfl, hsl, ← cfg.slotAddr_succ,
          Nat.mod_eq_of_lt (slotAddr_lt hlt hm hi)]
      | _ hpc' => cases hpc.symm.trans hpc'
    · exact .gone hgone

end Step

end GarbageCollector
