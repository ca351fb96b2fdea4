import GarbageCollector.SmallAllocator
import Mathlib.Data.Set.Basic

/-!
# Who owns a block

A block has no owner field: it belongs to the list it was pushed on or to the thread that
popped it. `Owned` makes the place of every block explicit and relates it to the lists, the
caches and the program counters of any number of threads. `Shielded` says why a slot that
must not be given out again is not.
-/

namespace GarbageCollector

open Bytes LinkedList

/-- `fresh` is a block popped from the empty list whose header is not yet written. -/
inductive Place (T : Type) where
  | empty
  | segreg (n : Nat)
  | fresh (t : T)
  | owned (t : T) (n : Nat)
  | abandoned

variable {T : Type}

/-- Where the blocks are after a step of thread `t` in state `l`. -/
def placeAfter (cfg : Config) (t : T) (s : SmallHeap) (l : Local) (place : Nat → Place T) :
    Nat → Place T :=
  match l.pc with
  | .takeSegreg n =>
    match s.segregList n with
    | some b => Function.update place b (.owned t n)
    | none => place
  | .takeEmpty _ =>
    match s.emptyListHead with
    | some b => Function.update place b (.fresh t)
    | none => place
  | .initHeader n b => Function.update place b (.owned t n)
  | .examine n b sl _ =>
    if sl + getSizeWithAlignment n ≤ cfg.blockAddr b + blockSize then place
    else Function.update place b .abandoned
  | .finish n b =>
    if slider cfg s.mem b + getSizeWithAlignment n ≥ cfg.blockAddr b + blockSize then
      Function.update place b .abandoned
    else place
  | _ => place

def InRange (n : Nat) : Prop := 1 ≤ n ∧ n ≤ maxObjectSize

instance (n : Nat) : Decidable (InRange n) := inferInstanceAs (Decidable (_ ∧ _))

/-- What the program counter of thread `t` promises. -/
def Working (cfg : Config) (s : SmallHeap) (place : Nat → Place T) (t : T) (l : Local) : Prop :=
  match l.pc with
  | .enter n => InRange n
  | .takeSegreg n | .takeEmpty n => InRange n ∧ l.nodesCache n = none
  | .initHeader n b =>
    InRange n ∧ l.nodesCache n = none ∧ b < cfg.blocksCount ∧ place b = .fresh t
  | .examine n b sl c =>
    InRange n ∧ l.nodesCache n = (if c = true then some b else none) ∧ b < cfg.blocksCount ∧
      place b = .owned t n ∧
      ∃ k, k ≤ slotCount n ∧ sl = cfg.slotAddr b n k ∧ slider cfg s.mem b ≤ sl
  | .finish n b =>
    InRange n ∧ (l.nodesCache n = none ∨ l.nodesCache n = some b) ∧ b < cfg.blocksCount ∧
      place b = .owned t n ∧
      ∃ k, k < slotCount n ∧ slider cfg s.mem b = cfg.slotAddr b n k ∧
        markBit cfg s.mem b k = false
  | .fillNode _ _ b => b < cfg.blocksCount
  | _ => True

/-- What the header of a block promises at its place. -/
def HeaderAt (cfg : Config) (m : Mem) (b : Nat) : Place T → Prop
  | .segreg n => headerSize cfg m b = n ∧ slider cfg m b = cfg.slotAddr b n 0
  | .owned _ n =>
    InRange n ∧ headerSize cfg m b = n ∧
      ∃ k, k ≤ slotCount n ∧ slider cfg m b = cfg.slotAddr b n k
  | .abandoned => InRange (headerSize cfg m b)
  | .empty | .fresh _ => True

structure Owned (cfg : Config) (s : SmallHeap) (th : T → Local) (place : Nat → Place T) :
    Prop where
  empty : ListOf s.nextNode s.emptyListHead fun b => b < cfg.blocksCount ∧ place b = .empty
  segreg : ∀ n, n < objectSizeUpperBound →
    ListOf s.nextNode (s.segregList n) fun b => b < cfg.blocksCount ∧ place b = .segreg n
  next_lt : ∀ b c, b < cfg.blocksCount → s.nextNode b = some c → c < cfg.blocksCount
  cached : ∀ t n b, (th t).nodesCache n = some b →
    InRange n ∧ b < cfg.blocksCount ∧ place b = .owned t n
  working : ∀ t, Working cfg s place t (th t)
  header : ∀ b, b < cfg.blocksCount → HeaderAt cfg s.mem b (place b)
  sizes : ∀ b, b < cfg.blocksCount → headerSize cfg s.mem b ≤ maxObjectSize

section Headers

variable (cfg : Config) (m : Mem) {b n i j : Nat}

theorem slider_zeroBitmap : slider cfg (zeroBitmap m (cfg.blockAddr b)) i = slider cfg m i :=
  slider_congr fun x hlo hhi => by
    rw [zeroBitmap_apply, if_neg (not_inBitmap_of_lt hlo (by omega))]

theorem headerSize_zeroBitmap :
    headerSize cfg (zeroBitmap m (cfg.blockAddr b)) i = headerSize cfg m i :=
  headerSize_congr fun x hlo hhi => by
    rw [zeroBitmap_apply, if_neg (not_inBitmap_of_lt (by omega) hhi)]

theorem slider_initHeader (hb : b < cfg.blocksCount) :
    slider cfg (initHeader cfg m b n) i =
      if i = b then cfg.slotAddr b n 0 else slider cfg m i := by
  have hlt := cfg.blockAddr_lt hb
  have hmod : cfg.slotAddr b n 0 % 2 ^ 64 = cfg.slotAddr b n 0 := by
    rw [cfg.slotAddr_zero]
    exact Nat.mod_eq_of_lt (by simp only [blockSize, blockHeaderSize] at *; omega)
  rw [initHeader, slider_zeroBitmap, slider_store_slider, slider_store_size,
    ← cfg.slotAddr_zero b n, hmod]

theorem headerSize_initHeader (hn : InRange n) :
    headerSize cfg (initHeader cfg m b n) i = if i = b then n else headerSize cfg m i := by
  have hmod : n % 2 ^ 64 = n :=
    Nat.mod_eq_of_lt (by have := hn.2; simp only [maxObjectSize] at this; omega)
  rw [initHeader, headerSize_zeroBitmap, headerSize_store_slider, headerSize_store_size, hmod]

theorem markBit_initHeader (hj : j < 8 * bitmapBytesCount) :
    markBit cfg (initHeader cfg m b n) i j = if i = b then false else markBit cfg m i j := by
  rw [initHeader, markBit_zeroBitmap hj, markBit_store_slider _ _ _ _ _ hj,
    markBit_store_size _ _ _ _ _ hj]

end Headers

section ClearBit

variable {cfg : Config} {m : Mem} {b n k i j : Nat}

theorem slotAddr_in_block (hn : InRange n)
    (hroom : cfg.slotAddr b n k + getSizeWithAlignment n ≤ cfg.blockAddr b + blockSize) :
    cfg.blockAddr b ≤ cfg.slotAddr b n k ∧ cfg.slotAddr b n k < cfg.blockAddr b + blockSize := by
  have hpos := getSizeWithAlignment_pos hn.1
  simp only [Config.slotAddr] at *
  omega

theorem setBitByAddress_false (m : Mem) (a : Nat) :
    setBitByAddress cfg m a 0#8 = setBitByAddress cfg m a (if false = true then 1#8 else 0#8) :=
  rfl

theorem clearBit_same (hn : InRange n) (hb : b < cfg.blocksCount)
    (hroom : cfg.slotAddr b n k + getSizeWithAlignment n ≤ cfg.blockAddr b + blockSize) :
    SameOutsideBitmaps cfg m (setBitByAddress cfg m (cfg.slotAddr b n k) 0#8) := by
  obtain ⟨hlo, hhi⟩ := slotAddr_in_block hn hroom
  rw [setBitByAddress_false]
  exact setBitByAddress_same hb hlo hhi false

theorem markBit_clearBit (hn : InRange n) (hsize : headerSize cfg m b = n)
    (hroom : cfg.slotAddr b n k + getSizeWithAlignment n ≤ cfg.blockAddr b + blockSize)
    (hj : j < 8 * bitmapBytesCount) :
    markBit cfg (setBitByAddress cfg m (cfg.slotAddr b n k) 0#8) i j =
      if i = b ∧ j = k then false else markBit cfg m i j := by
  obtain ⟨hlo, hhi⟩ := slotAddr_in_block hn hroom
  rw [setBitByAddress_false, markBit_setBitByAddress hlo hhi false hj,
    objectIndex_slotAddr hn.1 hsize hhi]

theorem getBit_slotAddr (hn : InRange n) (hsize : headerSize cfg m b = n)
    (hroom : cfg.slotAddr b n k + getSizeWithAlignment n ≤ cfg.blockAddr b + blockSize) :
    getBitByAddress cfg m (cfg.slotAddr b n k) = 0#8 ↔ markBit cfg m b k = false := by
  obtain ⟨hlo, hhi⟩ := slotAddr_in_block hn hroom
  rw [getBitByAddress_eq_zero hlo hhi, objectIndex_slotAddr hn.1 hsize hhi]

end ClearBit

/-- Block `b` is in the hands of thread `t`. -/
def Place.heldBy (t : T) : Place T → Prop
  | .fresh u => u = t
  | .owned u _ => u = t
  | _ => False

/-- A block whose header is written and whose bitmap counts. -/
def Place.inUse : Place T → Prop
  | .empty | .fresh _ => False
  | _ => True

section Step

variable {cfg : Config} {s s' : SmallHeap} {th : T → Local} {place : Nat → Place T} {t u : T}
  {l' : Local} {b n j : Nat}

theorem Owned.at (h : Owned cfg s th place) (t : T) {pc : Pc} (hpc : (th t).pc = pc) :
    Working cfg s place t ((th t).goto pc) := by
  have hw := h.working t
  subst hpc
  exact hw

theorem slot_room {sl k : Nat} (hsl : sl = cfg.slotAddr b n k) (hn : InRange n) :
    sl + getSizeWithAlignment n ≤ cfg.blockAddr b + blockSize ↔ k < slotCount n := by
  rw [hsl, ← cfg.slotAddr_succ, cfg.lt_slotCount_iff hn.1]

/-- Only the thread that holds a block writes its slider and its size. -/
theorem LocalStep.frame (hs : LocalStep cfg s (th t) s' l') (h : Owned cfg s th place)
    (hb : ¬ (place b).heldBy t) :
    slider cfg s'.mem b = slider cfg s.mem b ∧
      headerSize cfg s'.mem b = headerSize cfg s.mem b := by
  have other : ∀ {c : Nat} {p : Place T}, place c = p → p.heldBy t → b ≠ c := by
    rintro c p hc hp rfl
    exact hb (hc ▸ hp)
  cases hs with
  | init hpc =>
    obtain ⟨hn, -, hlt, hplace⟩ := h.at t hpc
    have hne := other hplace rfl
    simp [slider_initHeader cfg _ hlt, headerSize_initHeader cfg _ hn, hne]
  | found hpc hroom hbit =>
    obtain ⟨-, -, -, hplace, -⟩ := h.at t hpc
    simp [slider_store_slider, other hplace rfl]
  | skip hpc hroom hbit =>
    obtain ⟨hn, -, hlt, hplace, k, hk, rfl, -⟩ := h.at t hpc
    have hsame := clearBit_same (m := s.mem) hn hlt hroom
    exact ⟨hsame.slider, hsame.headerSize⟩
  | finish hpc =>
    obtain ⟨-, -, -, hplace, -⟩ := h.at t hpc
    simp [slider_store_slider, other hplace rfl]
  | fill hpc => exact ⟨slider_zeroBitmap cfg _, headerSize_zeroBitmap cfg _⟩
  | _ => exact ⟨rfl, rfl⟩

/-- No step sets a mark bit. -/
theorem LocalStep.bits (hs : LocalStep cfg s (th t) s' l') (h : Owned cfg s th place)
    (hj : j < 8 * bitmapBytesCount) (hbit : markBit cfg s'.mem b j = true) :
    markBit cfg s.mem b j = true := by
  cases hs with
  | init hpc =>
    rw [SmallHeap.setMem_mem, markBit_initHeader cfg _ hj] at hbit
    split at hbit
    · cases hbit
    · exact hbit
  | found hpc hroom _ => rwa [SmallHeap.setMem_mem, markBit_store_slider _ _ _ _ _ hj] at hbit
  | skip hpc hroom _ =>
    obtain ⟨hn, -, hlt, hplace, k, hk, rfl, -⟩ := h.at t hpc
    have hsize : headerSize cfg s.mem _ = _ := (hplace ▸ h.header _ hlt).2.1
    rw [SmallHeap.setMem_mem, markBit_clearBit hn hsize hroom hj] at hbit
    split at hbit
    · cases hbit
    · exact hbit
  | finish hpc => rwa [SmallHeap.setMem_mem, markBit_store_slider _ _ _ _ _ hj] at hbit
  | fill hpc =>
    rw [SmallHeap.setMem_mem, markBit_zeroBitmap hj] at hbit
    split at hbit
    · cases hbit
    · exact hbit
  | _ => exact hbit

/-- The lists and places after a step: one block popped, or one block of the acting thread
moved, or nothing moved. -/
inductive Moved (s : SmallHeap) (place : Nat → Place T) (t : T) :
    SmallHeap → (Nat → Place T) → Prop where
  | popSegreg {n b m} (hn : InRange n) (hh : s.segregList n = some b) :
      Moved s place t
        ⟨m, Function.update s.segregList n (s.nextNode b), s.nextNode, s.emptyListHead⟩
        (Function.update place b (.owned t n))
  | popEmpty {b m} (hh : s.emptyListHead = some b) :
      Moved s place t
        ⟨m, s.segregList, Function.update s.nextNode b none, s.nextNode b⟩
        (Function.update place b (.fresh t))
  | initialise {b n m} (hb : place b = .fresh t) :
      Moved s place t (s.setMem m) (Function.update place b (.owned t n))
  | abandon {b n m} (hb : place b = .owned t n) :
      Moved s place t (s.setMem m) (Function.update place b .abandoned)
  | stay {m} : Moved s place t (s.setMem m) place

theorem LocalStep.moved (hs : LocalStep cfg s (th t) s' l') (h : Owned cfg s th place) :
    Moved s place t s' (placeAfter cfg t s (th t) place) := by
  cases hs with
  | popSegreg hpc hh =>
    obtain ⟨hn, -⟩ := h.at t hpc
    simp only [placeAfter, hpc, hh]
    exact .popSegreg hn hh
  | popEmpty hpc hh =>
    simp only [placeAfter, hpc, hh]
    exact .popEmpty hh
  | init hpc =>
    obtain ⟨-, -, -, hplace⟩ := h.at t hpc
    simp only [placeAfter, hpc]
    exact .initialise hplace
  | exhaustedCache hpc hroom | exhausted hpc hroom =>
    obtain ⟨-, -, -, hplace, -⟩ := h.at t hpc
    simp only [placeAfter, hpc, if_neg hroom]
    exact .abandon (m := s.mem) hplace
  | finish hpc =>
    obtain ⟨-, -, -, hplace, -⟩ := h.at t hpc
    simp only [placeAfter, hpc]
    split
    · exact .abandon hplace
    · exact .stay
  | found hpc hroom hbit | skip hpc hroom hbit =>
    simp only [placeAfter, hpc, if_pos hroom]
    exact .stay
  | fill hpc =>
    simp only [placeAfter, hpc]
    exact .stay
  | segregEmpty hpc hh | outOfBlocks hpc hh =>
    simp only [placeAfter, hpc, hh]
    exact .stay (m := s.mem)
  | fromCache hpc | noCache hpc | nextList hpc | enterList hpc | fillDone hpc =>
    simp only [placeAfter, hpc]
    exact .stay (m := s.mem)

theorem update_place_iff {place : Nat → Place T} {b c : Nat} {p q : Place T}
    (hb : place b ≠ p) (hq : q ≠ p) : Function.update place b q c = p ↔ place c = p := by
  by_cases hc : c = b
  · subst hc
    simp [hb, hq]
  · simp [hc]

theorem InRange.lt (h : InRange n) : n < objectSizeUpperBound := by
  have := h.2
  simp only [objectSizeUpperBound]
  omega

variable {place' : Nat → Place T}

theorem Moved.empty_list (hm : Moved s place t s' place') (h : Owned cfg s th place) :
    ListOf s'.nextNode s'.emptyListHead fun b => b < cfg.blocksCount ∧ place' b = .empty := by
  cases hm with
  | @popSegreg n b _ hn hh =>
    have hmem := (hh ▸ h.segreg _ hn.lt).head_mem
    refine h.empty.congr fun c => ?_
    rw [update_place_iff (by simp [hmem.2]) (by simp)]
  | @popEmpty b _ hh =>
    have hlist := h.empty
    rw [hh] at hlist
    refine (hlist.pop.update_of_not (by simp) none).congr fun c => ?_
    by_cases hc : c = b
    · subst hc
      simp
    · simp [hc]
  | initialise hb | abandon hb =>
    refine h.empty.congr fun c => ?_
    rw [update_place_iff (by simp [hb]) (by simp)]
  | stay => exact h.empty

theorem Moved.segreg_list (hm : Moved s place t s' place') (h : Owned cfg s th place)
    (hn : n < objectSizeUpperBound) :
    ListOf s'.nextNode (s'.segregList n) fun b =>
      b < cfg.blocksCount ∧ place' b = .segreg n := by
  have hlist := h.segreg n hn
  cases hm with
  | @popSegreg k b _ hk hh =>
    by_cases hnk : n = k
    · subst hnk
      rw [hh] at hlist
      simp only [Function.update_self]
      refine hlist.pop.congr fun c => ?_
      by_cases hc : c = b
      · subst hc
        simp
      · simp [hc]
    · have hmem := (hh ▸ h.segreg _ hk.lt).head_mem
      simp only [Function.update_of_ne hnk]
      refine hlist.congr fun c => ?_
      rw [update_place_iff (by simp [hmem.2, Ne.symm hnk]) (by simp)]
  | @popEmpty b _ hh =>
    have hmem := (hh ▸ h.empty).head_mem
    refine (hlist.update_of_not (by simp [hmem.2]) none).congr fun c => ?_
    rw [update_place_iff (by simp [hmem.2]) (by simp)]
  | initialise hb | abandon hb =>
    refine hlist.congr fun c => ?_
    rw [update_place_iff (by simp [hb]) (by simp)]
  | stay => exact hlist

theorem Moved.next_lt (hm : Moved s place t s' place') (h : Owned cfg s th place) (b c : Nat)
    (hb : b < cfg.blocksCount) (hc : s'.nextNode b = some c) : c < cfg.blocksCount := by
  cases hm with
  | @popEmpty d _ hh =>
    by_cases hbd : b = d
    · subst hbd
      simp at hc
    · exact h.next_lt b c hb (by simpa [hbd] using hc)
  | _ => exact h.next_lt b c hb hc

/-- A block held by another thread, or by nobody any more, stays where it is. -/
theorem Moved.others (hm : Moved s place t s' place') (h : Owned cfg s th place) {p : Place T}
    (hp : place b = p) (hkeep : p = .abandoned ∨ ∃ u, u ≠ t ∧ p.heldBy u) : place' b = p := by
  have hne : ∀ {q : Place T}, (q = .empty ∨ (∃ n, q = .segreg n) ∨ q.heldBy t) → q ≠ p := by
    rintro q hq rfl
    rcases hkeep with rfl | ⟨u, hu, hheld⟩
    · simp [Place.heldBy] at hq
    · cases q <;> simp_all [Place.heldBy]
  have hmoved : ∀ {c : Nat} {q : Place T},
      (place c = .empty ∨ (∃ n, place c = .segreg n) ∨ (place c).heldBy t) →
        Function.update place c q b = p := by
    intro c q hc
    rw [Function.update_of_ne, hp]
    rintro rfl
    exact hne hc hp
  cases hm with
  | popSegreg hn hh => exact hmoved (Or.inr (Or.inl ⟨_, (hh ▸ h.segreg _ hn.lt).head_mem.2⟩))
  | popEmpty hh => exact hmoved (Or.inl (hh ▸ h.empty).head_mem.2)
  | initialise hb | abandon hb => exact hmoved (Or.inr (Or.inr (hb ▸ rfl)))
  | stay => exact hp

/-- A block owned by the acting thread stays with it or is given up. -/
theorem Moved.owner (hm : Moved s place t s' place') (h : Owned cfg s th place)
    (hp : place b = .owned t n) : place' b = .owned t n ∨ place' b = .abandoned := by
  have hother : ∀ {c : Nat} {q : Place T}, place c ≠ .owned t n →
      Function.update place c q b = .owned t n := by
    intro c q hc
    rw [Function.update_of_ne, hp]
    rintro rfl
    exact hc hp
  cases hm with
  | popSegreg hn hh =>
    have hplace := (hh ▸ h.segreg _ hn.lt).head_mem.2
    exact Or.inl (hother (by simp [hplace]))
  | popEmpty hh =>
    have hplace := (hh ▸ h.empty).head_mem.2
    exact Or.inl (hother (by simp [hplace]))
  | initialise hb => exact Or.inl (hother (by simp [hb]))
  | @abandon c _ _ hb =>
    by_cases hbc : b = c
    · exact Or.inr (by rw [hbc, Function.update_self])
    · exact Or.inl (by rw [Function.update_of_ne hbc, hp])
  | stay => exact Or.inl hp

/-- A block on a segregated list stays there or is popped by the acting thread. -/
theorem Moved.listed (hm : Moved s place t s' place') (h : Owned cfg s th place)
    (hp : place b = .segreg n) : place' b = .segreg n ∨ place' b = .owned t n := by
  have hother : ∀ {c : Nat} {q : Place T}, place c ≠ .segreg n →
      Function.update place c q b = .segreg n := by
    intro c q hc
    rw [Function.update_of_ne, hp]
    rintro rfl
    exact hc hp
  cases hm with
  | @popSegreg m c _ hn hh =>
    have hplace := (hh ▸ h.segreg _ hn.lt).head_mem.2
    by_cases hbc : b = c
    · subst hbc
      rw [hp, Place.segreg.injEq] at hplace
      exact Or.inr (by rw [Function.update_self, hplace])
    · exact Or.inl (by rw [Function.update_of_ne hbc, hp])
  | popEmpty hh =>
    have hplace := (hh ▸ h.empty).head_mem.2
    exact Or.inl (hother (by simp [hplace]))
  | initialise hb | abandon hb => exact Or.inl (hother (by simp [hb]))
  | stay => exact Or.inl hp

/-- A block that is neither empty nor fresh does not become so. -/
theorem Moved.in_use (hm : Moved s place t s' place') (h : Owned cfg s th place)
    (hp : (place b).inUse) : (place' b).inUse := by
  have hother : ∀ {c : Nat} {q : Place T}, ¬ (place c).inUse →
      (Function.update place c q b).inUse := by
    intro c q hc
    rw [Function.update_of_ne]
    · exact hp
    · rintro rfl
      exact hc hp
  cases hm with
  | @popSegreg m c _ hn hh =>
    by_cases hbc : b = c
    · rw [hbc, Function.update_self]
      trivial
    · rwa [Function.update_of_ne hbc]
  | popEmpty hh =>
    have hplace := (hh ▸ h.empty).head_mem.2
    exact hother (by simp [hplace, Place.inUse])
  | initialise hb => exact hother (by simp [hb, Place.inUse])
  | @abandon c _ _ hb =>
    by_cases hbc : b = c
    · rw [hbc, Function.update_self]
      trivial
    · rwa [Function.update_of_ne hbc]
  | stay => exact hp

/-- Working on is possible for a thread that did not step. -/
theorem LocalStep.working_other (hs : LocalStep cfg s (th t) s' l') (h : Owned cfg s th place)
    (hu : u ≠ t) : Working cfg s' (placeAfter cfg t s (th t) place) u (th u) := by
  have hm := hs.moved h
  have hw := h.working u
  have hstay : ∀ {b : Nat} {p : Place T}, place b = p → p.heldBy u →
      placeAfter cfg t s (th t) place b = p := fun hp hheld =>
    hm.others h hp (Or.inr ⟨u, hu, hheld⟩)
  have hframe : ∀ {b n : Nat}, place b = .owned u n →
      slider cfg s'.mem b = slider cfg s.mem b := fun hp =>
    (hs.frame h (by rw [hp]; exact hu)).1
  cases hpc : (th u).pc <;> simp only [Working, hpc] at hw ⊢
  case enter => exact hw
  case takeSegreg => exact hw
  case takeEmpty => exact hw
  case initHeader =>
    obtain ⟨hn, hc, hlt, hplace⟩ := hw
    exact ⟨hn, hc, hlt, hstay hplace rfl⟩
  case examine =>
    obtain ⟨hn, hc, hlt, hplace, k, hk, hsl, hle⟩ := hw
    exact ⟨hn, hc, hlt, hstay hplace rfl, k, hk, hsl, (hframe hplace).trans_le hle⟩
  case finish =>
    obtain ⟨hn, hc, hlt, hplace, k, hk, hsl, hbit⟩ := hw
    refine ⟨hn, hc, hlt, hstay hplace rfl, k, hk, (hframe hplace).trans hsl, ?_⟩
    have hj : k < 8 * bitmapBytesCount := hk.trans (slotCount_lt hn.1)
    exact Bool.eq_false_of_not_eq_true fun hset => by simp [hs.bits h hj hset] at hbit
  case fillNode => exact hw

theorem slotAddr_lt {k : Nat} (hb : b < cfg.blocksCount) (hn : InRange n) (hk : k ≤ slotCount n) :
    cfg.slotAddr b n k < 2 ^ 64 := by
  have hlt := cfg.blockAddr_lt hb
  rcases Nat.eq_zero_or_pos k with rfl | hpos
  · rw [cfg.slotAddr_zero]
    simp only [blockSize, blockHeaderSize] at *
    omega
  · have hlast := (cfg.lt_slotCount_iff (i := b) (k := k - 1) hn.1).mp (by omega)
    rw [Nat.sub_add_cancel hpos] at hlast
    omega

theorem LocalStep.working_self (hs : LocalStep cfg s (th t) s' l') (h : Owned cfg s th place) :
    Working cfg s' (placeAfter cfg t s (th t) place) t l' := by
  cases hs with
  | @fromCache n b hpc hc =>
    obtain ⟨hn, hlt, hplace⟩ := h.cached t n b hc
    obtain ⟨-, -, k, hk, hsl⟩ : HeaderAt cfg s.mem b (.owned t n) := hplace ▸ h.header b hlt
    simp only [Working, placeAfter, hpc, Local.goto_pc]
    exact ⟨hn, by simpa using hc, hlt, hplace, k, hk, hsl, le_rfl⟩
  | noCache hpc hc =>
    simp only [Working, Local.goto_pc]
    exact ⟨h.at t hpc, hc⟩
  | @popSegreg n b hpc hh =>
    obtain ⟨hn, hc⟩ := h.at t hpc
    obtain ⟨hlt, hplace⟩ := (hh ▸ h.segreg n hn.lt).head_mem
    obtain ⟨-, hsl⟩ : HeaderAt cfg s.mem b (.segreg n : Place T) := hplace ▸ h.header b hlt
    simp only [Working, placeAfter, hpc, hh, Local.goto_pc]
    exact ⟨hn, by simpa using hc, hlt, Function.update_self .., 0, Nat.zero_le _, hsl, le_rfl⟩
  | segregEmpty hpc hh =>
    simp only [Working, Local.goto_pc]
    exact h.at t hpc
  | @popEmpty n b hpc hh =>
    obtain ⟨hn, hc⟩ := h.at t hpc
    simp only [Working, placeAfter, hpc, hh, Local.goto_pc]
    exact ⟨hn, hc, (hh ▸ h.empty).head_mem.1, Function.update_self ..⟩
  | outOfBlocks hpc hh => simp only [Working, Local.goto_pc]
  | @init n b hpc =>
    obtain ⟨hn, hc, hlt, hplace⟩ := h.at t hpc
    simp only [Working, placeAfter, hpc, Local.goto_pc]
    refine ⟨hn, Or.inl hc, hlt, Function.update_self .., 0, slotCount_pos hn.1 hn.2, ?_, ?_⟩
    · simp [slider_initHeader cfg _ hlt]
    · simp [markBit_initHeader cfg _ (j := 0) (by decide)]
  | @found n b sl c hpc hroom hbit =>
    obtain ⟨hn, hc, hlt, hplace, k, hk, rfl, hle⟩ := h.at t hpc
    have hsize : headerSize cfg s.mem b = n := (hplace ▸ h.header b hlt).2.1
    have hkc := (slot_room rfl hn).mp hroom
    have hj : k < 8 * bitmapBytesCount := hkc.trans (slotCount_lt hn.1)
    simp only [Working, placeAfter, hpc, if_pos hroom, Local.goto_pc]
    refine ⟨hn, ?_, hlt, hplace, k, hkc, ?_, ?_⟩
    · have hc' : (th t).nodesCache n = if c = true then some b else none := hc
      cases c
      · exact Or.inl hc'
      · exact Or.inr hc'
    · rw [SmallHeap.setMem_mem, slider_store_slider, if_pos rfl,
        Nat.mod_eq_of_lt (slotAddr_lt hlt hn hk)]
    · rw [SmallHeap.setMem_mem, markBit_store_slider _ _ _ _ _ hj]
      exact (getBit_slotAddr hn hsize hroom).mp hbit
  | @skip n b sl c hpc hroom hbit =>
    obtain ⟨hn, hc, hlt, hplace, k, hk, rfl, hle⟩ := h.at t hpc
    have hkc := (slot_room rfl hn).mp hroom
    simp only [Working, placeAfter, hpc, if_pos hroom, Local.goto_pc]
    refine ⟨hn, hc, hlt, hplace, k + 1, hkc, (cfg.slotAddr_succ b n k).symm, ?_⟩
    rw [SmallHeap.setMem_mem, (clearBit_same hn hlt hroom).slider]
    omega
  | exhaustedCache hpc hroom =>
    obtain ⟨hn, -⟩ := h.at t hpc
    simp only [Working, Local.goto_pc]
    exact ⟨hn, by simp⟩
  | exhausted hpc hroom =>
    obtain ⟨hn, hc, -⟩ := h.at t hpc
    simp only [Working, Local.goto_pc]
    exact ⟨hn, by simpa using hc⟩
  | finish hpc => simp only [Working, Local.goto_pc]
  | nextList hpc hi hh => simp only [Working, Local.goto_pc]
  | enterList hpc hi hh =>
    simp only [Working, Local.goto_pc]
    exact (hh ▸ h.segreg _ hi).head_mem.1
  | fillDone hpc hi => simp only [Working, Local.goto_pc]
  | @fill n i b hpc =>
    have hlt : b < cfg.blocksCount := h.at t hpc
    cases hnext : s.nextNode b with
    | none => simp only [Working, Local.goto_pc]
    | some c =>
      simp only [Working, Local.goto_pc]
      exact h.next_lt b c hlt hnext

theorem HeaderAt.congr {m m' : Mem} {p : Place T} (hsl : slider cfg m' b = slider cfg m b)
    (hsz : headerSize cfg m' b = headerSize cfg m b) (h : HeaderAt cfg m b p) :
    HeaderAt cfg m' b p := by
  cases p <;> simp only [HeaderAt, hsl, hsz] at h ⊢ <;> exact h

theorem LocalStep.header (hs : LocalStep cfg s (th t) s' l') (h : Owned cfg s th place)
    {c : Nat} (hc : c < cfg.blocksCount) :
    HeaderAt cfg s'.mem c (placeAfter cfg t s (th t) place c) := by
  have hold := h.header c hc
  cases hs with
  | @popSegreg n b hpc hh =>
    obtain ⟨hn, -⟩ := h.at t hpc
    simp only [placeAfter, hpc, hh]
    by_cases hcb : c = b
    · subst hcb
      have hplace := (hh ▸ h.segreg n hn.lt).head_mem.2
      rw [hplace] at hold
      rw [Function.update_self]
      exact ⟨hn, hold.1, 0, Nat.zero_le _, hold.2⟩
    · rw [Function.update_of_ne hcb]
      exact hold
  | @popEmpty n b hpc hh =>
    simp only [placeAfter, hpc, hh]
    by_cases hcb : c = b
    · subst hcb
      rw [Function.update_self]
      trivial
    · rw [Function.update_of_ne hcb]
      exact hold
  | @init n b hpc =>
    obtain ⟨hn, -, hlt, hplace⟩ := h.at t hpc
    simp only [placeAfter, hpc, SmallHeap.setMem_mem]
    by_cases hcb : c = b
    · subst hcb
      rw [Function.update_self]
      refine ⟨hn, by simp [headerSize_initHeader cfg _ hn], 0, Nat.zero_le _, ?_⟩
      simp [slider_initHeader cfg _ hlt]
    · rw [Function.update_of_ne hcb]
      exact hold.congr (by simp [slider_initHeader cfg _ hlt, hcb])
        (by simp [headerSize_initHeader cfg _ hn, hcb])
  | @found n b sl ch hpc hroom hbit =>
    obtain ⟨hn, -, hlt, hplace, k, hk, rfl, -⟩ := h.at t hpc
    simp only [placeAfter, hpc, if_pos hroom, SmallHeap.setMem_mem]
    by_cases hcb : c = b
    · subst hcb
      rw [hplace] at hold ⊢
      refine ⟨hn, by simpa using hold.2.1, k, hk, ?_⟩
      rw [slider_store_slider, if_pos rfl, Nat.mod_eq_of_lt (slotAddr_lt hlt hn hk)]
    · exact hold.congr (by simp [slider_store_slider, hcb]) (by simp)
  | @skip n b sl ch hpc hroom hbit =>
    obtain ⟨hn, -, hlt, -, k, hk, rfl, -⟩ := h.at t hpc
    have hsame := clearBit_same (m := s.mem) hn hlt hroom
    simp only [placeAfter, hpc, if_pos hroom]
    exact hold.congr hsame.slider hsame.headerSize
  | @exhaustedCache n b sl hpc hroom | @exhausted n b sl hpc hroom =>
    obtain ⟨hn, -, -, hplace, -⟩ := h.at t hpc
    simp only [placeAfter, hpc, if_neg hroom]
    by_cases hcb : c = b
    · subst hcb
      rw [hplace] at hold
      rw [Function.update_self]
      simp only [HeaderAt, hold.2.1]
      exact hn
    · rw [Function.update_of_ne hcb]
      exact hold
  | @finish n b hpc =>
    obtain ⟨hn, -, hlt, hplace, k, hk, hsl, -⟩ := h.at t hpc
    simp only [placeAfter, hpc, SmallHeap.setMem_mem]
    by_cases hcb : c = b
    · subst hcb
      rw [hplace] at hold
      split
      · rw [Function.update_self]
        simp only [HeaderAt, headerSize_store_slider]
        exact hold.2.1.symm ▸ hn
      · rw [hplace]
        refine ⟨hn, by simpa using hold.2.1, k + 1, hk, ?_⟩
        rw [slider_store_slider, if_pos rfl, hsl, ← cfg.slotAddr_succ,
          Nat.mod_eq_of_lt (slotAddr_lt hlt hn hk)]
    · have hplaces : (if slider cfg s.mem b + getSizeWithAlignment n ≥ cfg.blockAddr b + blockSize
          then Function.update place b .abandoned else place) c = place c := by
        split
        · exact Function.update_of_ne hcb _ _
        · rfl
      rw [hplaces]
      exact hold.congr (by simp [slider_store_slider, hcb]) (by simp)
  | fill hpc =>
    simp only [placeAfter, hpc]
    exact hold.congr (slider_zeroBitmap cfg _) (headerSize_zeroBitmap cfg _)
  | segregEmpty hpc hh | outOfBlocks hpc hh =>
    simp only [placeAfter, hpc, hh]
    exact hold
  | fromCache hpc | noCache hpc | nextList hpc | enterList hpc | fillDone hpc =>
    simp only [placeAfter, hpc]
    exact hold

theorem LocalStep.sizes (hs : LocalStep cfg s (th t) s' l') (h : Owned cfg s th place)
    {c : Nat} (hc : c < cfg.blocksCount) : headerSize cfg s'.mem c ≤ maxObjectSize := by
  have hold := h.sizes c hc
  cases hs with
  | init hpc =>
    obtain ⟨hn, -⟩ := h.at t hpc
    rw [SmallHeap.setMem_mem, headerSize_initHeader cfg _ hn]
    split
    · exact hn.2
    · exact hold
  | found hpc hroom hbit => simpa using hold
  | skip hpc hroom hbit =>
    obtain ⟨hn, -, hlt, -, k, hk, rfl, -⟩ := h.at t hpc
    rw [SmallHeap.setMem_mem, (clearBit_same hn hlt hroom).headerSize]
    exact hold
  | finish hpc => simpa using hold
  | fill hpc => rwa [SmallHeap.setMem_mem, headerSize_zeroBitmap]
  | _ => exact hold

/-- The acting thread caches only blocks it owns. -/
theorem LocalStep.cached_self (hs : LocalStep cfg s (th t) s' l') (h : Owned cfg s th place)
    {m c : Nat} (hc : l'.nodesCache m = some c) :
    InRange m ∧ c < cfg.blocksCount ∧ placeAfter cfg t s (th t) place c = .owned t m := by
  -- a cached block other than the one at hand stays where it is
  have hkeep : ∀ {b : Nat} {p : Place T}, (th t).nodesCache m = some c →
      place b ≠ .owned t m → InRange m ∧ c < cfg.blocksCount ∧
        Function.update place b p c = .owned t m := by
    intro b p hcm hb
    obtain ⟨hm, hlt, hplace⟩ := h.cached t m c hcm
    refine ⟨hm, hlt, ?_⟩
    have hne : c ≠ b := by
      rintro rfl
      exact hb hplace
    rw [Function.update_of_ne hne, hplace]
  cases hs with
  | popSegreg hpc hh =>
    obtain ⟨hn, -⟩ := h.at t hpc
    simp only [placeAfter, hpc, hh]
    have hplace := (hh ▸ h.segreg _ hn.lt).head_mem.2
    exact hkeep hc (by simp [hplace])
  | popEmpty hpc hh =>
    simp only [placeAfter, hpc, hh]
    have hplace := (hh ▸ h.empty).head_mem.2
    exact hkeep hc (by simp [hplace])
  | init hpc =>
    obtain ⟨-, -, -, hplace⟩ := h.at t hpc
    simp only [placeAfter, hpc]
    exact hkeep hc (by simp [hplace])
  | @exhaustedCache n b sl hpc hroom =>
    obtain ⟨-, -, -, hplace, -⟩ := h.at t hpc
    simp only [placeAfter, hpc, if_neg hroom]
    simp only [Local.goto_nodesCache, Local.setCache_nodesCache] at hc
    by_cases hmn : m = n
    · subst hmn
      simp at hc
    · rw [Function.update_of_ne hmn] at hc
      exact hkeep hc (by simp [hplace, Ne.symm hmn])
  | @exhausted n b sl hpc hroom =>
    obtain ⟨-, hcache, -, hplace, -⟩ := h.at t hpc
    simp only [placeAfter, hpc, if_neg hroom]
    refine hkeep hc ?_
    rw [hplace]
    simp only [ne_eq, Place.owned.injEq, true_and]
    rintro rfl
    simp [show (th t).nodesCache n = none from hcache] at hc
  | @finish n b hpc =>
    obtain ⟨hn, -, hlt, hplace, -⟩ := h.at t hpc
    simp only [placeAfter, hpc]
    simp only [Local.goto_nodesCache, Local.setCache_nodesCache] at hc
    by_cases hmn : m = n
    · subst hmn
      rw [Function.update_self] at hc
      split at hc
      · cases hc
      · rename_i hroom
        rw [if_neg hroom, ← Option.some.inj hc]
        exact ⟨hn, hlt, hplace⟩
    · rw [Function.update_of_ne hmn] at hc
      split
      · exact hkeep hc (by simp [hplace, Ne.symm hmn])
      · exact h.cached t m c hc
  | found hpc hroom hbit | skip hpc hroom hbit =>
    simp only [placeAfter, hpc, if_pos hroom]
    exact h.cached t m c hc
  | segregEmpty hpc hh | outOfBlocks hpc hh =>
    simp only [placeAfter, hpc, hh]
    exact h.cached t m c hc
  | fromCache hpc | noCache hpc | nextList hpc | enterList hpc | fillDone hpc | fill hpc =>
    simp only [placeAfter, hpc]
    exact h.cached t m c hc

theorem LocalStep.owned [DecidableEq T] (hs : LocalStep cfg s (th t) s' l')
    (h : Owned cfg s th place) :
    Owned cfg s' (Function.update th t l') (placeAfter cfg t s (th t) place) where
  empty := (hs.moved h).empty_list h
  segreg := fun _ hn => (hs.moved h).segreg_list h hn
  next_lt := (hs.moved h).next_lt h
  cached := by
    intro u m c hc
    by_cases hu : u = t
    · subst hu
      exact hs.cached_self h (by simpa using hc)
    · rw [Function.update_of_ne hu] at hc
      obtain ⟨hm, hlt, hplace⟩ := h.cached u m c hc
      exact ⟨hm, hlt, (hs.moved h).others h hplace (Or.inr ⟨u, hu, rfl⟩)⟩
  working := by
    intro u
    by_cases hu : u = t
    · subst hu
      rw [Function.update_self]
      exact hs.working_self h
    · rw [Function.update_of_ne hu]
      exact hs.working_other h hu
  header := fun _ hb => hs.header h hb
  sizes := fun _ hb => hs.sizes h hb

end Step

end GarbageCollector
