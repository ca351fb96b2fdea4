import GarbageCollector.FreeQueues
import GarbageCollector.SoloCall

/-!
# The free slots of a size

For every size the heap and the caller hold a list of free slots: those of the block at hand or in
the cache from the walk's position on, then those of the blocks on the segregated list. A step of a
call leaves the lists of the other sizes alone.
-/

namespace GarbageCollector

open Bytes LinkedList FreeQueues

section Functions

variable (cfg : Config)

/-- All slots that block `b` has for size `n`. -/
def blockSlots (n b : Nat) : List Nat := (List.range (slotCount n)).map (cfg.slotAddr b n)

def unmarkedSlots (m : Mem) (n b : Nat) : List Nat :=
  ((List.range (slotCount n)).filter fun k => !markBit cfg m b k).map (cfg.slotAddr b n)

/-- The unmarked slots of block `b` from address `a` on. -/
def freeFrom (m : Mem) (n b a : Nat) : List Nat :=
  ((List.range (slotCount n)).filter fun k =>
    decide (a ≤ cfg.slotAddr b n k) && !markBit cfg m b k).map (cfg.slotAddr b n)

def cachedSlots (s : SmallHeap) (cache : NodesCache) (n : Nat) : List Nat :=
  match cache n with
  | none => []
  | some b => freeFrom cfg s.mem n b (slider cfg s.mem b)

/-- The free slots of the block from which a request for size `n` would be served first. -/
def currentSlots (s : SmallHeap) (l : Local) (n : Nat) : List Nat :=
  match l.pc with
  | .examine m b sl _ =>
    if m = n then freeFrom cfg s.mem n b sl else cachedSlots cfg s l.nodesCache n
  | .finish m b =>
    if m = n then freeFrom cfg s.mem n b (slider cfg s.mem b)
    else cachedSlots cfg s l.nodesCache n
  | _ => cachedSlots cfg s l.nodesCache n

/-- `ys` are the unmarked slots of the blocks on the segregated list of size `n`, in list order. -/
def ListedSlots (s : SmallHeap) (n : Nat) (ys : List Nat) : Prop :=
  ∃ chain, IsList s.nextNode (s.segregList n) chain ∧
    ys = chain.flatMap (unmarkedSlots cfg s.mem n)

/-- A block that the call has popped from the empty list and not yet initialised. -/
def popped : Pc → List Nat
  | .initHeader _ b => [b]
  | _ => []

/-- The queues hold the free slots of every size and the empty blocks. -/
structure HoldsSlots (s : SmallHeap) (l : Local) (q : Queues Nat Nat Nat) : Prop where
  pool : ∃ chain, IsList s.nextNode s.emptyListHead chain ∧ q.pool = popped l.pc ++ chain
  pending : ∀ n, InRange n → ∃ ys, ListedSlots cfg s n ys ∧
    q.pending n = currentSlots cfg s l n ++ ys

end Functions

section Slots

variable {cfg : Config} {m m' : Mem} {n b k a : Nat}

/-- From slot `k` on. -/
theorem freeFrom_slotAddr (hn : InRange n) (hk : k ≤ slotCount n) :
    freeFrom cfg m n b (cfg.slotAddr b n k) =
      ((List.range' k (slotCount n - k)).filter fun j => !markBit cfg m b j).map
        (cfg.slotAddr b n) := by
  have hsplit : List.range (slotCount n) = List.range' 0 k ++ List.range' k (slotCount n - k) := by
    rw [List.range_eq_range']
    have happend : List.range' 0 k ++ List.range' (0 + k) (slotCount n - k) =
        List.range' 0 (k + (slotCount n - k)) := List.range'_append_1
    rw [Nat.zero_add, Nat.add_sub_cancel' hk] at happend
    exact happend.symm
  have hle : ∀ j, cfg.slotAddr b n k ≤ cfg.slotAddr b n j ↔ k ≤ j := by
    intro j
    rw [← not_lt, cfg.slotAddr_lt_iff hn.1, not_lt]
  have hlow : (List.range' 0 k).filter (fun j =>
      decide (cfg.slotAddr b n k ≤ cfg.slotAddr b n j) && !markBit cfg m b j) = [] := by
    rw [List.filter_eq_nil_iff]
    intro j hj
    rw [List.mem_range'_1] at hj
    simp only [hle, Bool.and_eq_true, decide_eq_true_eq, not_and]
    omega
  have hhigh : (List.range' k (slotCount n - k)).filter (fun j =>
      decide (cfg.slotAddr b n k ≤ cfg.slotAddr b n j) && !markBit cfg m b j) =
      (List.range' k (slotCount n - k)).filter fun j => !markBit cfg m b j := by
    refine List.filter_congr fun j hj => ?_
    rw [List.mem_range'_1] at hj
    simp [hle, hj.1]
  rw [freeFrom, hsplit, List.filter_append, hlow, hhigh, List.nil_append]

/-- A marked slot is skipped. -/
theorem freeFrom_marked (hn : InRange n) (hk : k < slotCount n)
    (hbit : markBit cfg m b k = true) :
    freeFrom cfg m n b (cfg.slotAddr b n k) = freeFrom cfg m n b (cfg.slotAddr b n (k + 1)) := by
  rw [freeFrom_slotAddr hn hk.le, freeFrom_slotAddr hn hk,
    show slotCount n - k = slotCount n - (k + 1) + 1 by omega, List.range'_succ,
    List.filter_cons_of_neg (by simp [hbit])]

/-- An unmarked slot is the first one. -/
theorem freeFrom_unmarked (hn : InRange n) (hk : k < slotCount n)
    (hbit : markBit cfg m b k = false) :
    freeFrom cfg m n b (cfg.slotAddr b n k) =
      cfg.slotAddr b n k :: freeFrom cfg m n b (cfg.slotAddr b n (k + 1)) := by
  rw [freeFrom_slotAddr hn hk.le, freeFrom_slotAddr hn hk,
    show slotCount n - k = slotCount n - (k + 1) + 1 by omega, List.range'_succ,
    List.filter_cons_of_pos (by simp [hbit]), List.map_cons]

theorem freeFrom_end (hn : InRange n) :
    freeFrom cfg m n b (cfg.slotAddr b n (slotCount n)) = [] := by
  rw [freeFrom_slotAddr hn le_rfl, Nat.sub_self]
  rfl

theorem freeFrom_start (hn : InRange n) :
    freeFrom cfg m n b (cfg.slotAddr b n 0) = unmarkedSlots cfg m n b := by
  rw [freeFrom_slotAddr hn (Nat.zero_le _), unmarkedSlots, List.range_eq_range', Nat.sub_zero]

theorem unmarkedSlots_clear (hn : InRange n)
    (hclear : ∀ j, j < 8 * bitmapBytesCount → markBit cfg m b j = false) :
    unmarkedSlots cfg m n b = blockSlots cfg n b := by
  rw [unmarkedSlots, blockSlots, List.filter_eq_self.mpr]
  intro j hj
  have hlt := (List.mem_range.mp hj).trans (slotCount_lt hn.1)
  simp [hclear j hlt]

theorem blockSlots_ne_nil (hn : InRange n) (b : Nat) : blockSlots cfg n b ≠ [] := by
  have hpos := slotCount_pos hn.1 hn.2
  simp only [blockSlots, ne_eq, List.map_eq_nil_iff, List.range_eq_nil]
  omega

theorem freeFrom_congr (hn : InRange n)
    (same : ∀ j, j < 8 * bitmapBytesCount → markBit cfg m' b j = markBit cfg m b j) :
    freeFrom cfg m' n b a = freeFrom cfg m n b a := by
  rw [freeFrom, freeFrom, List.filter_congr]
  intro j hj
  rw [same j ((List.mem_range.mp hj).trans (slotCount_lt hn.1))]

theorem unmarkedSlots_congr (hn : InRange n)
    (same : ∀ j, j < 8 * bitmapBytesCount → markBit cfg m' b j = markBit cfg m b j) :
    unmarkedSlots cfg m' n b = unmarkedSlots cfg m n b := by
  rw [unmarkedSlots, unmarkedSlots, List.filter_congr]
  intro j hj
  rw [same j ((List.mem_range.mp hj).trans (slotCount_lt hn.1))]

/-- Only bits behind `a` matter. -/
theorem freeFrom_congr_of_le (hn : InRange n) (hk : k ≤ slotCount n)
    (same : ∀ j, k ≤ j → j < 8 * bitmapBytesCount → markBit cfg m' b j = markBit cfg m b j) :
    freeFrom cfg m' n b (cfg.slotAddr b n k) = freeFrom cfg m n b (cfg.slotAddr b n k) := by
  rw [freeFrom_slotAddr hn hk, freeFrom_slotAddr hn hk, List.filter_congr]
  intro j hj
  rw [List.mem_range'_1] at hj
  have hlt := slotCount_lt hn.1
  rw [same j hj.1 (by omega)]

end Slots

section Step

variable {cfg : Config} {s s' : SmallHeap} {l l' : Local} {place : Nat → Place (Fin 1)}
  {b n k : Nat} {ys : List Nat}

/-- Outside the zeroing of all bitmaps a call writes only to its own block. -/
theorem LocalStep.block_kept (hs : LocalStep cfg s l s' l') (h : Solo cfg s l place)
    (hsize : l.pc.size = some n) (hfill : ¬ l.pc.filling) (hfresh : place b ≠ .fresh 0)
    (howned : place b ≠ .owned 0 n) :
    slider cfg s'.mem b = slider cfg s.mem b ∧
      ∀ j, j < 8 * bitmapBytesCount → markBit cfg s'.mem b j = markBit cfg s.mem b j := by
  have hne : ∀ {m c : Nat}, l.pc.size = some m → place c = .owned 0 m → b ≠ c := by
    rintro m c hm hp rfl
    obtain rfl := Option.some.inj (hm.symm.trans hsize)
    exact howned hp
  cases hs with
  | @init m c hpc =>
    obtain ⟨-, -, hlt, hplace⟩ := h.owned.at 0 hpc
    have hbc : b ≠ c := by
      rintro rfl
      exact hfresh hplace
    constructor
    · simp [slider_initHeader cfg _ hlt, hbc]
    · intro j hj
      rw [SmallHeap.setMem_mem, markBit_initHeader cfg _ hj, if_neg hbc]
  | @found m c sl ch hpc hroom hbit =>
    obtain ⟨-, -, -, hplace, -⟩ := h.owned.at 0 hpc
    have hbc := hne (m := m) (by rw [hpc]; rfl) hplace
    constructor
    · simp [slider_store_slider, hbc]
    · intro j hj
      rw [SmallHeap.setMem_mem, markBit_store_slider _ _ _ _ _ hj]
  | @skip m c sl ch hpc hroom hbit =>
    obtain ⟨hn, -, hlt, hplace, i, -, rfl, -⟩ := h.owned.at 0 hpc
    have hbc := hne (m := m) (by rw [hpc]; rfl) hplace
    have hc : headerSize cfg s.mem c = m := (hplace ▸ h.owned.header c hlt).2.1
    constructor
    · exact (clearBit_same hn hlt hroom).slider
    · intro j hj
      rw [SmallHeap.setMem_mem, markBit_clearBit hn hc hroom hj, if_neg]
      exact fun hbj => hbc hbj.1
  | @finish m c hpc =>
    obtain ⟨-, -, -, hplace, -⟩ := h.owned.at 0 hpc
    have hbc := hne (m := m) (by rw [hpc]; rfl) hplace
    constructor
    · simp [slider_store_slider, hbc]
    · intro j hj
      rw [SmallHeap.setMem_mem, markBit_store_slider _ _ _ _ _ hj]
  | fill hpc =>
    rw [hpc] at hfill
    exact absurd trivial hfill
  | _ => exact ⟨rfl, fun _ _ => rfl⟩

/-- A call changes only the cache entry of its size. -/
theorem LocalStep.cache_kept {m : Nat} (hs : LocalStep cfg s l s' l') (hsize : l.pc.size = some m)
    (hne : n ≠ m) : l'.nodesCache n = l.nodesCache n := by
  cases hs with
  | @exhaustedCache m' c sl hpc hroom | @finish m' c hpc =>
    rw [hpc] at hsize
    obtain rfl : m' = m := Option.some.inj hsize
    exact Function.update_of_ne hne _ _
  | _ => rfl

theorem chain_place (h : Solo cfg s l place) (hn : InRange n) {chain : List Nat}
    (hchain : IsList s.nextNode (s.segregList n) chain) (hb : b ∈ chain) :
    b < cfg.blocksCount ∧ place b = .segreg n :=
  (h.owned.segreg n hn.lt).onList_iff.mp (hchain.onList_iff.mpr hb)

/-- Only taking a block off the list for size `n` changes what is listed for `n`. -/
theorem LocalStep.listed_kept {m : Nat} (hs : LocalStep cfg s l s' l') (h : Solo cfg s l place)
    (hsize : l.pc.size = some m) (hfill : ¬ l.pc.filling) (hn : InRange n)
    (hpop : l.pc ≠ .takeSegreg n) (hl : ListedSlots cfg s n ys) : ListedSlots cfg s' n ys := by
  obtain ⟨chain, hchain, rfl⟩ := hl
  refine ⟨chain, ?_, List.flatMap_congr fun b hb => ?_⟩
  · cases hs with
    | @popSegreg k c hpc hh =>
      have hne : n ≠ k := by
        rintro rfl
        exact hpop hpc
      simp only [Function.update_of_ne hne]
      exact hchain
    | @popEmpty k c hpc hh =>
      have hplace := (hh ▸ h.owned.empty).head_mem.2
      refine hchain.update_of_not_mem (fun hc => ?_) none
      rw [(chain_place h hn hchain hc).2] at hplace
      cases hplace
    | _ => exact hchain
  · obtain ⟨-, hplace⟩ := chain_place h hn hchain hb
    obtain ⟨-, hbits⟩ := hs.block_kept h hsize hfill (b := b) (by simp [hplace]) (by simp [hplace])
    exact (unmarkedSlots_congr hn hbits).symm

theorem currentSlots_other {m : Nat} (hsize : l.pc.size = some m) (hne : n ≠ m) :
    currentSlots cfg s l n = cachedSlots cfg s l.nodesCache n := by
  cases hpc : l.pc <;> simp only [hpc, Pc.size, Option.some.injEq] at hsize <;>
    simp only [currentSlots, hpc]
  case examine => rw [if_neg (by omega)]
  case finish => rw [if_neg (by omega)]

theorem LocalStep.current_kept {m : Nat} (hs : LocalStep cfg s l s' l') (h : Solo cfg s l place)
    (hsize : l.pc.size = some m) (hfill : ¬ l.pc.filling) (hn : InRange n) (hne : n ≠ m) :
    currentSlots cfg s' l' n = currentSlots cfg s l n := by
  rw [currentSlots_other hsize hne, currentSlots_other (hs.size_eq.trans hsize) hne, cachedSlots,
    cachedSlots, hs.cache_kept hsize hne]
  cases hc : l.nodesCache n with
  | none => rfl
  | some b =>
    obtain ⟨-, -, hplace⟩ := h.owned.cached 0 n b hc
    obtain ⟨hsl, hbits⟩ := hs.block_kept h hsize hfill (b := b) (by simp [hplace])
      (by simp [hplace, hne])
    simp only [hsl]
    exact freeFrom_congr hn hbits

/-- The other sizes keep their queues over a step. -/
theorem LocalStep.holdsSlots {m : Nat} {q q' : Queues Nat Nat Nat} (hs : LocalStep cfg s l s' l')
    (h : Solo cfg s l place) (hsize : l.pc.size = some m) (hfill : ¬ l.pc.filling)
    (hold : HoldsSlots cfg s l q) (hother : ∀ n, n ≠ m → q'.pending n = q.pending n)
    (hpool : ∃ chain, IsList s'.nextNode s'.emptyListHead chain ∧ q'.pool = popped l'.pc ++ chain)
    (hself : ∀ ys, ListedSlots cfg s m ys → q.pending m = currentSlots cfg s l m ++ ys →
      ∃ zs, ListedSlots cfg s' m zs ∧ q'.pending m = currentSlots cfg s' l' m ++ zs) :
    HoldsSlots cfg s' l' q' := by
  refine ⟨hpool, fun n hn => ?_⟩
  obtain ⟨ys, hlisted, hys⟩ := hold.pending n hn
  by_cases hnm : n = m
  · subst hnm
    exact hself ys hlisted hys
  · have hpop : l.pc ≠ .takeSegreg n := by
      intro hpc
      rw [hpc] at hsize
      exact hnm (Option.some.inj hsize)
    refine ⟨ys, hs.listed_kept h hsize hfill hn hpop hlisted, ?_⟩
    rw [hother n hnm, hs.current_kept h hsize hfill hn hnm]
    exact hys

end Step

end GarbageCollector
