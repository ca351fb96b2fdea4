import GarbageCollector.CallReturns
import GarbageCollector.FreeSlots
import GarbageCollector.KeptSlots

/-!
# The small allocator as queues of free slots

A call of `allocate_small_object` is one request to the queues: the block of the caller and the
segregated list are the queue of the size, and the empty list is the pool of all sizes.
-/

namespace GarbageCollector.SlotQueues

open Bytes LinkedList FreeQueues
open ConcurrentAlloc (Apart)

/-- How far a call for size `n` that started with the queues `q` has come. -/
def Serving (cfg : Config) (q : Queues Nat Nat Nat) (n : Nat) (s : SmallHeap) (l : Local) : Prop :=
  match l.pc with
  | .initHeader _ _ => HoldsSlots cfg s l q ∧ q.pending n = []
  | .finish _ _ => HoldsSlots cfg s l (refill (blockSlots cfg) q n)
  | .returned _ (some r) =>
    (request (blockSlots cfg) q n).1 = some r ∧ HoldsSlots cfg s l (request (blockSlots cfg) q n).2
  | .fillList _ _ | .fillNode _ _ _ | .returned _ none => q.pending n = [] ∧ q.pool = []
  | _ => HoldsSlots cfg s l q

section Step

variable {cfg : Config} {s s' s₀ : SmallHeap} {l l' : Local} {place place₀ : Nat → Place (Fin 1)}
  {q q' : Queues Nat Nat Nat} {n b : Nat}

theorem pending_of_nothing (hold : HoldsSlots cfg s l q) (hn : InRange n)
    (hseg : s.segregList n = none) (hcur : currentSlots cfg s l n = []) : q.pending n = [] := by
  obtain ⟨ys, ⟨chain, hchain, rfl⟩, hys⟩ := hold.pending n hn
  rw [hseg] at hchain
  obtain rfl : chain = [] := hchain.unique rfl
  rw [hys, hcur]
  rfl

/-- A step that moves no block between the lists. -/
theorem holds_of_same_lists {m : Nat} (hs : LocalStep cfg s l s' l') (h : Solo cfg s l place)
    (hsize : l.pc.size = some m) (hfill : ¬ l.pc.filling) (hold : HoldsSlots cfg s l q)
    (hpop : l.pc ≠ .takeSegreg m) (hn : InRange m)
    (hnext : s'.nextNode = s.nextNode) (hhead : s'.emptyListHead = s.emptyListHead)
    (hl : popped l.pc = []) (hl' : popped l'.pc = [])
    (hother : ∀ k, k ≠ m → q'.pending k = q.pending k) (hpool : q'.pool = q.pool)
    (hself : ∀ ys, q.pending m = currentSlots cfg s l m ++ ys →
      q'.pending m = currentSlots cfg s' l' m ++ ys) : HoldsSlots cfg s' l' q' := by
  refine hs.holdsSlots h hsize hfill hold hother ?_ fun ys hlisted hys => ?_
  · obtain ⟨chain, hchain, hq⟩ := hold.pool
    rw [hl] at hq
    refine ⟨chain, ?_, ?_⟩
    · rw [hnext, hhead]
      exact hchain
    · rw [hpool, hl', hq]
  · exact ⟨ys, hs.listed_kept h hsize hfill hn hpop hlisted, hself ys hys⟩

/-- Storing a slot's address in the slider does not change what is free from there on. -/
theorem freeFrom_store_slider {m : Mem} {k : Nat} (hn : InRange n) (hb : b < cfg.blocksCount)
    (hk : k ≤ slotCount n) :
    freeFrom cfg (store64 m (getSliderPositionAddr (cfg.blockAddr b)) (cfg.slotAddr b n k)) n b
      (slider cfg (store64 m (getSliderPositionAddr (cfg.blockAddr b)) (cfg.slotAddr b n k)) b) =
      freeFrom cfg m n b (cfg.slotAddr b n k) := by
  rw [slider_store_slider, if_pos rfl, Nat.mod_eq_of_lt (slotAddr_lt hb hn hk)]
  exact freeFrom_congr hn fun j hj => markBit_store_slider _ _ _ _ _ hj

theorem currentSlots_examine {sl : Nat} {c : Bool} (hpc : l.pc = .examine n b sl c) :
    currentSlots cfg s l n = freeFrom cfg s.mem n b sl := by
  simp only [currentSlots, hpc, if_pos]

theorem currentSlots_finish (hpc : l.pc = .finish n b) :
    currentSlots cfg s l n = freeFrom cfg s.mem n b (slider cfg s.mem b) := by
  simp only [currentSlots, hpc, if_pos]

/-- The block at hand is used up. -/
theorem exhausted_nil {sl : Nat} {c : Bool} (h : Solo cfg s l place)
    (hpc : l.pc = .examine n b sl c)
    (hroom : ¬ sl + getSizeWithAlignment n ≤ cfg.blockAddr b + blockSize) :
    currentSlots cfg s l n = [] := by
  obtain ⟨hn, -, -, -, k, hk, hsl, -⟩ := h.owned.at 0 hpc
  rw [slot_room hsl hn, not_lt] at hroom
  rw [currentSlots_examine hpc, hsl, le_antisymm hk hroom]
  exact freeFrom_end hn

/-- Taking a block off the segregated list brings its slots to the front. -/
theorem popSegreg_listed {ys : List Nat} (h : Solo cfg s l place) (hpc : l.pc = .takeSegreg n)
    (hh : s.segregList n = some b) (hlisted : ListedSlots cfg s n ys) :
    ∃ zs, ListedSlots cfg
        { s with segregList := Function.update s.segregList n (s.nextNode b) } n zs ∧
      ys = freeFrom cfg s.mem n b (slider cfg s.mem b) ++ zs := by
  obtain ⟨hn, -⟩ := h.owned.at 0 hpc
  obtain ⟨chain, hchain, rfl⟩ := hlisted
  cases chain with
  | nil => cases hh.symm.trans hchain
  | cons c rest =>
    obtain ⟨hc, hrest⟩ := hchain
    obtain rfl : b = c := Option.some.inj (hh.symm.trans hc)
    obtain ⟨hb, hplace⟩ := (hh ▸ h.owned.segreg n hn.lt).head_mem
    obtain ⟨-, hsl⟩ : HeaderAt cfg s.mem b (.segreg n : Place (Fin 1)) :=
      hplace ▸ h.owned.header b hb
    refine ⟨rest.flatMap (unmarkedSlots cfg s.mem n), ⟨rest, ?_, rfl⟩, ?_⟩
    · simp only [Function.update_self]
      exact hrest
    · rw [hsl, freeFrom_start hn, List.flatMap_cons]

/-- A fresh block offers all its slots. -/
theorem currentSlots_init (h : Solo cfg s l place) (hpc : l.pc = .initHeader n b) :
    currentSlots cfg (s.setMem (initHeader cfg s.mem b n)) (l.goto (.finish n b)) n =
      blockSlots cfg n b := by
  obtain ⟨hn, -, hlt, -⟩ := h.owned.at 0 hpc
  rw [currentSlots_finish rfl, SmallHeap.setMem_mem, slider_initHeader cfg _ hlt, if_pos rfl,
    freeFrom_start hn]
  refine unmarkedSlots_clear hn fun j hj => ?_
  rw [markBit_initHeader cfg _ hj, if_pos rfl]

/-- A marked slot is not among the free ones, and clearing its bit does not put it there. -/
theorem currentSlots_skip {sl : Nat} {c : Bool} (h : Solo cfg s l place)
    (hpc : l.pc = .examine n b sl c)
    (hroom : sl + getSizeWithAlignment n ≤ cfg.blockAddr b + blockSize)
    (hbit : getBitByAddress cfg s.mem sl ≠ 0#8) :
    currentSlots cfg (s.setMem (setBitByAddress cfg s.mem sl 0#8))
      (l.goto (.examine n b (sl + getSizeWithAlignment n) c)) n = currentSlots cfg s l n := by
  obtain ⟨hn, -, hlt, hplace, k, -, rfl, -⟩ := h.owned.at 0 hpc
  have hsize : headerSize cfg s.mem b = n := (hplace ▸ h.owned.header b hlt).2.1
  have hk : k < slotCount n := (slot_room rfl hn).mp hroom
  rw [ne_eq, getBit_slotAddr hn hsize hroom, Bool.not_eq_false] at hbit
  rw [currentSlots_examine hpc, freeFrom_marked hn hk hbit, currentSlots_examine rfl,
    ← cfg.slotAddr_succ]
  refine freeFrom_congr_of_le hn hk fun j hkj hj => ?_
  rw [SmallHeap.setMem_mem, markBit_clearBit hn hsize hroom hj, if_neg]
  omega

/-- The slot about to be returned is the first free one. -/
theorem currentSlots_cons {k : Nat} (hn : InRange n) (hpc : l.pc = .finish n b)
    (hk : k < slotCount n) (hsl : slider cfg s.mem b = cfg.slotAddr b n k)
    (hbit : markBit cfg s.mem b k = false) :
    currentSlots cfg s l n =
      slider cfg s.mem b :: freeFrom cfg s.mem n b (cfg.slotAddr b n (k + 1)) := by
  rw [currentSlots_finish hpc, hsl, freeFrom_unmarked hn hk hbit]

/-- The other free slots of the block are still there after the return. -/
theorem currentSlots_returned {k : Nat} {res : Option Nat} (hn : InRange n)
    (hb : b < cfg.blocksCount) (hk : k < slotCount n)
    (hsl : slider cfg s.mem b = cfg.slotAddr b n k) :
    currentSlots cfg
      (s.setMem (store64 s.mem (getSliderPositionAddr (cfg.blockAddr b))
        (slider cfg s.mem b + getSizeWithAlignment n)))
      ((l.setCache n (if slider cfg s.mem b + getSizeWithAlignment n ≥
        cfg.blockAddr b + blockSize then none else some b)).goto (.returned n res)) n =
      freeFrom cfg s.mem n b (cfg.slotAddr b n (k + 1)) := by
  simp only [currentSlots, Local.goto_pc, cachedSlots, Local.goto_nodesCache,
    Local.setCache_nodesCache, Function.update_self, hsl, ← cfg.slotAddr_succ]
  split
  · rename_i hc
    split at hc
    · rename_i hfull
      -- no whole slot is left behind the last one
      have hlast : slotCount n ≤ k + 1 := by
        by_contra hlt
        have hend := (cfg.lt_slotCount_iff (i := b) hn.1).mp (Nat.lt_of_not_le hlt)
        have hpos := getSizeWithAlignment_pos hn.1
        rw [cfg.slotAddr_succ] at hend
        omega
      rw [le_antisymm hk hlast]
      exact (freeFrom_end hn).symm
    · cases hc
  · rename_i c hc
    split at hc
    · cases hc
    · cases hc
      exact freeFrom_store_slider hn hb hk

/-- A step that moves no block between the lists and changes no free slot of the size. -/
theorem holds_of_same_slots {m : Nat} (hs : LocalStep cfg s l s' l') (h : Solo cfg s l place)
    (hsize : l.pc.size = some m) (hfill : ¬ l.pc.filling) (hold : HoldsSlots cfg s l q)
    (hpop : l.pc ≠ .takeSegreg m) (hn : InRange m)
    (hnext : s'.nextNode = s.nextNode) (hhead : s'.emptyListHead = s.emptyListHead)
    (hl : popped l.pc = []) (hl' : popped l'.pc = [])
    (hcur : currentSlots cfg s' l' m = currentSlots cfg s l m) : HoldsSlots cfg s' l' q := by
  refine holds_of_same_lists hs h hsize hfill hold hpop hn hnext hhead hl hl' (fun _ _ => rfl) rfl
    fun ys hys => ?_
  rw [hys, hcur]

/-- A call that asks for an empty block has no free slot of its size left. -/
theorem pending_takeEmpty (ha : Attempt cfg n s₀ place₀ s l place) (hpc : l.pc = .takeEmpty n)
    (hold : HoldsSlots cfg s l q) : q.pending n = [] := by
  obtain ⟨hn, hcache⟩ := ha.solo.owned.at 0 hpc
  have hcache' : l.nodesCache n = none := hcache
  have hseg : s.segregList n = none := by
    have hfilled := ha.filled
    simp only [Filled, hpc] at hfilled
    exact hfilled
  refine pending_of_nothing hold hn hseg ?_
  simp only [currentSlots, hpc, cachedSlots, hcache']

theorem holds_popSegreg (h : Solo cfg s l place) (hpc : l.pc = .takeSegreg n)
    (hh : s.segregList n = some b) (hold : HoldsSlots cfg s l q) :
    HoldsSlots cfg { s with segregList := Function.update s.segregList n (s.nextNode b) }
      (l.goto (.examine n b (slider cfg s.mem b) false)) q := by
  obtain ⟨-, hcache⟩ := h.owned.at 0 hpc
  have hcache' : l.nodesCache n = none := hcache
  have hsize : l.pc.size = some n := by rw [hpc]; rfl
  refine (LocalStep.popSegreg hpc hh).holdsSlots h hsize (by rw [hpc]; exact id) hold
    (fun _ _ => rfl) ?_ fun ys hlisted hys => ?_
  · obtain ⟨chain, hchain, hpool⟩ := hold.pool
    rw [hpc] at hpool
    exact ⟨chain, hchain, hpool⟩
  · obtain ⟨zs, hzs, rfl⟩ := popSegreg_listed h hpc hh hlisted
    have hnone : currentSlots cfg s l n = [] := by
      simp only [currentSlots, hpc, cachedSlots, hcache']
    refine ⟨zs, hzs, ?_⟩
    rw [hys, hnone, List.nil_append, currentSlots_examine rfl]

theorem holds_segregEmpty (h : Solo cfg s l place) (hpc : l.pc = .takeSegreg n)
    (hh : s.segregList n = none) (hold : HoldsSlots cfg s l q) :
    HoldsSlots cfg s (l.goto (.takeEmpty n)) q := by
  have hsize : l.pc.size = some n := by rw [hpc]; rfl
  refine (LocalStep.segregEmpty hpc hh).holdsSlots h hsize (by rw [hpc]; exact id) hold
    (fun _ _ => rfl) ?_ fun ys hlisted hys => ⟨ys, hlisted, ?_⟩
  · obtain ⟨chain, hchain, hpool⟩ := hold.pool
    rw [hpc] at hpool
    exact ⟨chain, hchain, hpool⟩
  · rw [hys]
    simp only [currentSlots, hpc, Local.goto_pc, Local.goto_nodesCache]

/-- The block taken off the empty list is still the first of the pool. -/
theorem holds_popEmpty (h : Solo cfg s l place) (hpc : l.pc = .takeEmpty n)
    (hh : s.emptyListHead = some b) (hold : HoldsSlots cfg s l q) :
    HoldsSlots cfg
      { s with emptyListHead := s.nextNode b, nextNode := Function.update s.nextNode b none }
      (l.goto (.initHeader n b)) q := by
  obtain ⟨hn, hcache⟩ := h.owned.at 0 hpc
  have hcache' : l.nodesCache n = none := hcache
  have hsize : l.pc.size = some n := by rw [hpc]; rfl
  have hstep : LocalStep cfg s l _ _ := .popEmpty hpc hh
  refine hstep.holdsSlots h hsize (by rw [hpc]; exact id) hold (fun _ _ => rfl) ?_
    fun ys hlisted hys => ?_
  · obtain ⟨chain, hchain, hpool⟩ := hold.pool
    rw [hpc] at hpool
    cases chain with
    | nil => cases hh.symm.trans hchain
    | cons c rest =>
      obtain rfl : b = c := Option.some.inj (hh.symm.trans hchain.1)
      have hnot : b ∉ rest := (List.nodup_cons.mp hchain.nodup).1
      exact ⟨rest, hchain.2.update_of_not_mem hnot none, hpool⟩
  · refine ⟨ys, hstep.listed_kept h hsize (by rw [hpc]; exact id) hn (by simp [hpc]) hlisted, ?_⟩
    rw [hys]
    simp only [currentSlots, hpc, cachedSlots, hcache', Local.goto_pc, Local.goto_nodesCache]

/-- Initialising the block draws it from the pool: its slots are the queue of the size. -/
theorem holds_init (h : Solo cfg s l place) (hpc : l.pc = .initHeader n b)
    (hold : HoldsSlots cfg s l q) (hnone : q.pending n = []) :
    HoldsSlots cfg (s.setMem (initHeader cfg s.mem b n)) (l.goto (.finish n b))
      (refill (blockSlots cfg) q n) := by
  obtain ⟨hn, -⟩ := h.owned.at 0 hpc
  have hsize : l.pc.size = some n := by rw [hpc]; rfl
  have hstep : LocalStep cfg s l _ _ := .init hpc
  obtain ⟨chain, hchain, hpool⟩ := hold.pool
  rw [hpc] at hpool
  rw [refill_of_pool hnone hpool]
  refine hstep.holdsSlots h hsize (by rw [hpc]; exact id) hold
    (fun k hk => Function.update_of_ne hk _ _) ⟨chain, hchain, rfl⟩ fun ys hlisted hys => ?_
  have hys' : ys = [] := (List.append_eq_nil_iff.mp (hys.symm.trans hnone)).2
  refine ⟨ys, hstep.listed_kept h hsize (by rw [hpc]; exact id) hn (by simp [hpc]) hlisted, ?_⟩
  rw [currentSlots_init h hpc, hys', List.append_nil]
  exact Function.update_self _ _ _

/-- With an unmarked slot found there is something pending, and the pool is not drawn from. -/
theorem holds_found {sl : Nat} {c : Bool} (h : Solo cfg s l place)
    (hpc : l.pc = .examine n b sl c)
    (hroom : sl + getSizeWithAlignment n ≤ cfg.blockAddr b + blockSize)
    (hbit : getBitByAddress cfg s.mem sl = 0#8) (hold : HoldsSlots cfg s l q) :
    HoldsSlots cfg (s.setMem (store64 s.mem (getSliderPositionAddr (cfg.blockAddr b)) sl))
      (l.goto (.finish n b)) (refill (blockSlots cfg) q n) := by
  have hstep := LocalStep.found hpc hroom hbit
  have hsize : l.pc.size = some n := by rw [hpc]; rfl
  obtain ⟨hn, -, hlt, hplace, k, hk, rfl, -⟩ := h.owned.at 0 hpc
  have hb : headerSize cfg s.mem b = n := (hplace ▸ h.owned.header b hlt).2.1
  have hk' : k < slotCount n := (slot_room rfl hn).mp hroom
  rw [getBit_slotAddr hn hb hroom] at hbit
  have hpending : q.pending n ≠ [] := by
    obtain ⟨ys, -, hys⟩ := hold.pending n hn
    rw [hys, currentSlots_examine hpc, freeFrom_unmarked hn hk' hbit]
    exact List.cons_ne_nil _ _
  rw [refill_of_pending hpending]
  refine holds_of_same_slots hstep h hsize (by rw [hpc]; exact id) hold (by simp [hpc]) hn rfl rfl
    (by rw [hpc]; rfl) rfl ?_
  rw [currentSlots_examine hpc, currentSlots_finish rfl, SmallHeap.setMem_mem,
    freeFrom_store_slider hn hlt hk]

/-- The first slot of the queue goes with the return. -/
theorem serving_finish (h : Solo cfg s l place) (hpc : l.pc = .finish n b)
    (hold : HoldsSlots cfg s l (refill (blockSlots cfg) q n)) :
    Serving cfg q n
      (s.setMem (store64 s.mem (getSliderPositionAddr (cfg.blockAddr b))
        (slider cfg s.mem b + getSizeWithAlignment n)))
      ((l.setCache n (if slider cfg s.mem b + getSizeWithAlignment n ≥
        cfg.blockAddr b + blockSize then none else some b)).goto
        (.returned n (some (slider cfg s.mem b)))) := by
  have hsize : l.pc.size = some n := by rw [hpc]; rfl
  obtain ⟨hn, -, hlt, hplace, k, hk, hsl, hbit⟩ := h.owned.at 0 hpc
  have hcons := currentSlots_cons hn hpc hk hsl hbit
  obtain ⟨ys, -, hys⟩ := hold.pending n hn
  rw [hcons, List.cons_append] at hys
  show (request (blockSlots cfg) q n).1 = some _ ∧
    HoldsSlots cfg _ _ (request (blockSlots cfg) q n).2
  rw [request_of_cons hys]
  refine ⟨rfl, ?_⟩
  refine holds_of_same_lists (.finish hpc) h hsize (by rw [hpc]; exact id) hold (by simp [hpc]) hn
    rfl rfl (by rw [hpc]; rfl) rfl (fun j hj => Function.update_of_ne hj _ _) rfl fun zs hzs => ?_
  rw [currentSlots_returned hn hlt hk hsl]
  rw [hcons, List.cons_append, hys] at hzs
  exact (Function.update_self _ _ _).trans (List.cons_inj_right _ |>.mp hzs)

/-- A step of a call keeps to the queues: the pool is drawn from when a fresh block is
initialised, and the first free slot goes with the return. -/
theorem serving_step (ha : Attempt cfg n s₀ place₀ s l place) (hs : LocalStep cfg s l s' l')
    (hq : Serving cfg q n s l) : Serving cfg q n s' l' := by
  have hstep := hs
  have h := ha.solo
  have hsize := ha.size
  have hown : ∀ {m : Nat}, l.pc.size = some m → m = n := fun hm =>
    Option.some.inj (hm.symm.trans hsize)
  cases hs with
  | @fromCache m b hpc hc =>
    obtain rfl := hown (m := m) (by rw [hpc]; rfl)
    have hn : InRange m := h.owned.at 0 hpc
    simp only [Serving, hpc] at hq
    refine holds_of_same_slots hstep h hsize (by rw [hpc]; exact id) hq (by simp [hpc]) hn rfl rfl
      (by rw [hpc]; rfl) rfl ?_
    simp only [currentSlots, hpc, cachedSlots, hc, Local.goto_pc, if_pos]
  | @noCache m hpc hc =>
    obtain rfl := hown (m := m) (by rw [hpc]; rfl)
    have hn : InRange m := h.owned.at 0 hpc
    simp only [Serving, hpc] at hq
    refine holds_of_same_slots hstep h hsize (by rw [hpc]; exact id) hq (by simp [hpc]) hn rfl rfl
      (by rw [hpc]; rfl) rfl ?_
    simp only [currentSlots, hpc, Local.goto_pc, Local.goto_nodesCache]
  | @popSegreg m b hpc hh =>
    obtain rfl := hown (m := m) (by rw [hpc]; rfl)
    simp only [Serving, hpc] at hq
    exact holds_popSegreg h hpc hh hq
  | @segregEmpty m hpc hh =>
    obtain rfl := hown (m := m) (by rw [hpc]; rfl)
    simp only [Serving, hpc] at hq
    exact holds_segregEmpty h hpc hh hq
  | @popEmpty m b hpc hh =>
    obtain rfl := hown (m := m) (by rw [hpc]; rfl)
    simp only [Serving, hpc] at hq
    exact ⟨holds_popEmpty h hpc hh hq, pending_takeEmpty ha hpc hq⟩
  | @outOfBlocks m hpc hh =>
    obtain rfl := hown (m := m) (by rw [hpc]; rfl)
    simp only [Serving, hpc] at hq
    refine ⟨pending_takeEmpty ha hpc hq, ?_⟩
    obtain ⟨chain, hchain, hpool⟩ := hq.pool
    rw [hh] at hchain
    obtain rfl : chain = [] := hchain.unique rfl
    rw [hpool, hpc]
    rfl
  | @init m b hpc =>
    obtain rfl := hown (m := m) (by rw [hpc]; rfl)
    simp only [Serving, hpc] at hq
    exact holds_init h hpc hq.1 hq.2
  | @found m b sl c hpc hroom hbit =>
    obtain rfl := hown (m := m) (by rw [hpc]; rfl)
    simp only [Serving, hpc] at hq
    exact holds_found h hpc hroom hbit hq
  | @skip m b sl c hpc hroom hbit =>
    obtain rfl := hown (m := m) (by rw [hpc]; rfl)
    obtain ⟨hn, -⟩ := h.owned.at 0 hpc
    simp only [Serving, hpc] at hq
    exact holds_of_same_slots hstep h hsize (by rw [hpc]; exact id) hq (by simp [hpc]) hn rfl rfl
      (by rw [hpc]; rfl) rfl (currentSlots_skip h hpc hroom hbit)
  | @exhaustedCache m b sl hpc hroom =>
    obtain rfl := hown (m := m) (by rw [hpc]; rfl)
    obtain ⟨hn, -⟩ := h.owned.at 0 hpc
    simp only [Serving, hpc] at hq
    refine holds_of_same_slots hstep h hsize (by rw [hpc]; exact id) hq (by simp [hpc]) hn rfl rfl
      (by rw [hpc]; rfl) rfl ?_
    rw [exhausted_nil h hpc hroom]
    simp only [currentSlots, cachedSlots, Local.goto_pc, Local.goto_nodesCache,
      Local.setCache_nodesCache, Function.update_self]
  | @exhausted m b sl hpc hroom =>
    obtain rfl := hown (m := m) (by rw [hpc]; rfl)
    obtain ⟨hn, hcache, -⟩ := h.owned.at 0 hpc
    have hcache' : l.nodesCache m = none := hcache
    simp only [Serving, hpc] at hq
    refine holds_of_same_slots hstep h hsize (by rw [hpc]; exact id) hq (by simp [hpc]) hn rfl rfl
      (by rw [hpc]; rfl) rfl ?_
    rw [exhausted_nil h hpc hroom]
    simp only [currentSlots, cachedSlots, Local.goto_pc, Local.goto_nodesCache, hcache']
  | @finish m b hpc =>
    obtain rfl := hown (m := m) (by rw [hpc]; rfl)
    simp only [Serving, hpc] at hq
    exact serving_finish h hpc hq
  | nextList hpc | enterList hpc | fillDone hpc =>
    simp only [Serving, hpc] at hq
    exact hq
  | @fill m i b hpc =>
    simp only [Serving, hpc] at hq
    cases hb : s.nextNode b with
    | none => exact hq
    | some c => exact hq

end Step

section Call

variable {cfg : Config} {s s' : SmallHeap} {place : Nat → Place (Fin 1)} {cache cache' : NodesCache}
  {q : Queues Nat Nat Nat} {n fuel : Nat} {res : Option Nat}

/-- No block can serve a request for size `n`. -/
structure NothingLeft (cfg : Config) (s : SmallHeap) (cache : NodesCache) (n : Nat) : Prop where
  listed : ∀ b, OnList s.nextNode (s.segregList n) b → unmarkedSlots cfg s.mem n b = []
  current : ∀ b, cache n = some b → freeFrom cfg s.mem n b (slider cfg s.mem b) = []
  empty : s.emptyListHead = none

/-- Without its program counter a caller between two calls holds the same. -/
theorem holds_enter (hold : HoldsSlots cfg s ⟨.idle, cache⟩ q) :
    HoldsSlots cfg s ⟨.enter n, cache⟩ q :=
  ⟨hold.pool, hold.pending⟩

theorem holds_idle (hold : HoldsSlots cfg s ⟨.returned n res, cache⟩ q) :
    HoldsSlots cfg s ⟨.idle, cache⟩ q :=
  ⟨hold.pool, hold.pending⟩

theorem cachedSlots_eq_nil :
    cachedSlots cfg s cache n = [] ↔
      ∀ b, cache n = some b → freeFrom cfg s.mem n b (slider cfg s.mem b) = [] := by
  rw [cachedSlots]
  constructor
  · intro hnil b hb
    rwa [hb] at hnil
  · intro hnone
    split
    · rfl
    · rename_i b hb
      exact hnone b hb

theorem nothingLeft_iff (hn : InRange n) (hold : HoldsSlots cfg s ⟨.idle, cache⟩ q) :
    NothingLeft cfg s cache n ↔ q.pending n = [] ∧ q.pool = [] := by
  obtain ⟨ys, ⟨chain, hchain, rfl⟩, hys⟩ := hold.pending n hn
  obtain ⟨empties, hempties, hpool⟩ := hold.pool
  have hpool' : q.pool = empties := hpool
  have hcurrent : currentSlots cfg s ⟨.idle, cache⟩ n = cachedSlots cfg s cache n := rfl
  rw [hys, hpool', List.append_eq_nil_iff, hcurrent, cachedSlots_eq_nil, List.flatMap_eq_nil_iff]
  constructor
  · intro h
    refine ⟨⟨h.current, fun b hb => h.listed b ⟨chain, hchain, hb⟩⟩, ?_⟩
    rw [h.empty] at hempties
    exact hempties.unique rfl
  · rintro ⟨⟨hcached, hlisted⟩, rfl⟩
    refine ⟨fun b hb => hlisted b (hchain.onList_iff.mp hb), hcached, hempties⟩

/-- A call gives the answer of the queues. -/
theorem call_serves (h : Solo cfg s ⟨.idle, cache⟩ place) (hn : InRange n)
    (hold : HoldsSlots cfg s ⟨.idle, cache⟩ q)
    (hrun : allocateSmallObject cfg fuel s cache n = some (s', cache', res)) :
    (request (blockSlots cfg) q n).1 = res ∧
      (res ≠ none → HoldsSlots cfg s' ⟨.idle, cache'⟩ (request (blockSlots cfg) q n).2) := by
  obtain ⟨-, -, hserved⟩ := attempt_run (Q := fun s l _ => Serving cfg q n s l) h hn
    (holds_enter hold) (fun s l s' l' place ha hq hs => serving_step ha hs hq) hrun
  cases res with
  | none =>
    obtain ⟨hpending, hpool⟩ := hserved
    rw [request_of_nothing hpending hpool]
    exact ⟨rfl, fun hne => absurd rfl hne⟩
  | some r =>
    obtain ⟨hres, hheld⟩ := hserved
    exact ⟨hres, fun _ => holds_idle hheld⟩

/-- A call returns nothing exactly when nothing is left. -/
theorem call_none_iff (h : Solo cfg s ⟨.idle, cache⟩ place) (hn : InRange n)
    (hold : HoldsSlots cfg s ⟨.idle, cache⟩ q)
    (hrun : allocateSmallObject cfg fuel s cache n = some (s', cache', res)) :
    res = none ↔ NothingLeft cfg s cache n := by
  rw [nothingLeft_iff hn hold, ← (call_serves h hn hold hrun).1]
  exact request_none_iff (blockSlots_ne_nil hn)

theorem listsEnd_of_owned (h : Solo cfg s ⟨.idle, cache⟩ place) : CallReturns.ListsEnd cfg s := by
  intro n hn
  obtain ⟨chain, hchain, hmem⟩ := h.owned.segreg n hn
  exact ⟨chain, hchain, fun b hb => ((hmem b).mp hb).1⟩

/-- With this fuel a call returns. -/
theorem call_returns (h : Solo cfg s ⟨.idle, cache⟩ place) (hn : InRange n)
    (hfuel : CallReturns.callDepth cfg ≤ fuel) :
    ∃ p, allocateSmallObject cfg fuel s cache n = some p :=
  CallReturns.allocateSmallObject_returns hn.1 hn.lt (listsEnd_of_owned h)
    (fun b hb => (h.owned.cached 0 n b hb).2.1) hfuel

end Call

/-- Requests one after the other, up to the first one that returns `NULL`. -/
def allocateAll (cfg : Config) (fuel : Nat) :
    SmallHeap → NodesCache → List Nat → Option (List (Nat × Option Nat) × SmallHeap × NodesCache)
  | s, cache, [] => some ([], s, cache)
  | s, cache, n :: ns =>
    (allocateSmallObject cfg fuel s cache n).bind fun p =>
      match p.2.2 with
      | none => some ([(n, none)], p.1, p.2.1)
      | some r =>
        (allocateAll cfg fuel p.1 p.2.1 ns).map fun rest => ((n, some r) :: rest.1, rest.2)

/-- The addresses given out, each with the size asked for. -/
def delivered (outs : List (Nat × Option Nat)) : List (Nat × Nat) :=
  outs.filterMap fun x => x.2.map fun r => (r, x.1)

/-- The queues that the lists of the heap stand for when no block is cached. -/
structure Lists (cfg : Config) (s : SmallHeap) (q : Queues Nat Nat Nat) : Prop where
  empty : IsList s.nextNode s.emptyListHead q.pool
  segreg : ∀ n, InRange n → ListedSlots cfg s n (q.pending n)

/-- The requests in `ns` get the answers of the queues: the free slots in order, none of them
twice, and `NULL` exactly when nothing is left. -/
structure Refines (cfg : Config) (s : SmallHeap) (cache : NodesCache) (q : Queues Nat Nat Nat)
    (ns : List Nat) (fuel : Nat) (outs : List (Nat × Option Nat)) (s' : SmallHeap)
    (cache' : NodesCache) : Prop where
  run : allocateAll cfg fuel s cache ns = some (outs, s', cache')
  answers : outs = (serve (blockSlots cfg) q ns).1
  apart : (delivered outs).Pairwise Apart
  next : (∀ x, x ∈ outs → x.2 ≠ none) → ∀ n, InRange n →
    (∃ fuel p, allocateSmallObject cfg fuel s' cache' n = some p) ∧
    ∀ fuel s'' cache'' res, allocateSmallObject cfg fuel s' cache' n = some (s'', cache'', res) →
      (res = none ↔ NothingLeft cfg s' cache' n)

section Sequence

variable {cfg : Config} {s s' : SmallHeap} {place : Nat → Place (Fin 1)} {cache cache' : NodesCache}
  {q : Queues Nat Nat Nat} {n fuel : Nat} {ns : List Nat} {xs : List (Nat × Nat)}

theorem apart_symm {x y : Nat × Nat} (h : Apart x y) : Apart y x := Or.symm h

theorem allocateAll_refines (h : Solo cfg s ⟨.idle, cache⟩ place)
    (hx : ∀ x, x ∈ xs → Protected cfg s ⟨.idle, cache⟩ place x)
    (hold : HoldsSlots cfg s ⟨.idle, cache⟩ q) (hns : ∀ n, n ∈ ns → InRange n) :
    ∃ least, ∀ fuel, least ≤ fuel → ∃ outs s' cache',
      Refines cfg s cache q ns fuel outs s' cache' ∧
        ∀ y, y ∈ delivered outs → ∀ x, x ∈ xs → Apart y x := by
  induction ns generalizing s cache place q xs with
  | nil =>
    refine ⟨0, fun fuel _ =>
      ⟨[], s, cache, ⟨rfl, rfl, List.Pairwise.nil, fun _ n hn => ?_⟩, by simp [delivered]⟩⟩
    refine ⟨⟨_, call_returns h hn (le_refl _)⟩, ?_⟩
    exact fun fuel s'' cache'' res hrun => call_none_iff h hn hold hrun
  | cons n ns ih =>
    have hn : InRange n := hns n List.mem_cons_self
    obtain ⟨⟨s₁, cache₁, res⟩, hcall⟩ := call_returns h hn (le_refl (CallReturns.callDepth cfg))
    obtain ⟨hanswer, hheld⟩ := call_serves h hn hold hcall
    cases res with
    | none =>
      refine ⟨CallReturns.callDepth cfg, fun fuel hfuel =>
        ⟨[(n, none)], s₁, cache₁, ⟨?_, ?_, ?_, ?_⟩, by simp [delivered]⟩⟩
      · rw [allocateAll, CallReturns.allocateSmallObject_mono hcall hfuel]
        rfl
      · rw [serve]
        rcases hr : request (blockSlots cfg) q n with ⟨o, q'⟩
        rw [hr] at hanswer
        obtain rfl : o = none := hanswer
        rfl
      · exact List.Pairwise.nil
      · intro hall
        exact absurd rfl (hall (n, none) List.mem_cons_self)
    | some r =>
      have hfound : some r = none → FailedAllocation.NoOther cfg s.mem n := by simp
      obtain ⟨place₁, h₁, hkept, hnew⟩ := call_protects h hn hx hfound hcall
      obtain ⟨hr, hap⟩ := hnew r rfl
      have hx₁ : ∀ x, x ∈ (r, n) :: xs → Protected cfg s₁ ⟨.idle, cache₁⟩ place₁ x := by
        intro x hmem
        rcases List.mem_cons.mp hmem with rfl | hmem
        · exact hr
        · exact hkept x hmem
      obtain ⟨least, hrest⟩ := ih h₁ hx₁ (hheld (by simp)) fun m hm =>
        hns m (List.mem_cons_of_mem n hm)
      refine ⟨max (CallReturns.callDepth cfg) least, fun fuel hfuel => ?_⟩
      obtain ⟨outs, s', cache', href, hapart⟩ := hrest fuel (by omega)
      refine ⟨(n, some r) :: outs, s', cache', ⟨?_, ?_, ?_, ?_⟩, ?_⟩
      · rw [allocateAll, CallReturns.allocateSmallObject_mono hcall (by omega), Option.bind_some]
        simp only [href.run, Option.map_some]
      · rw [serve, href.answers]
        rcases hreq : request (blockSlots cfg) q n with ⟨o, q'⟩
        rw [hreq] at hanswer
        obtain rfl : o = some r := hanswer
        rfl
      · refine List.pairwise_cons.mpr ⟨fun y hy => ?_, href.apart⟩
        exact apart_symm (hapart y hy (r, n) List.mem_cons_self)
      · exact fun hall => href.next fun x hmem => hall x (List.mem_cons_of_mem _ hmem)
      · intro y hy x hmem
        rcases List.mem_cons.mp hy with rfl | hy
        · exact hap x hmem
        · exact hapart y hy x (List.mem_cons_of_mem _ hmem)

theorem swept_lists (s : SmallHeap) :
    ∃ q, Lists cfg (sweepSmallHeap cfg s) q := by
  have hswept := sweepSmallHeap_swept cfg s
  refine ⟨⟨fun n => (markedBlocks cfg s.mem n cfg.blocksCount).flatMap
    (unmarkedSlots cfg (sweepSmallHeap cfg s).mem n), emptyBlocks cfg s.mem cfg.blocksCount⟩, ?_⟩
  constructor
  · exact hswept.empty
  · intro n hn
    exact ⟨_, hswept.segreg n hn.lt, rfl⟩

theorem Lists.holds (h : Lists cfg s q) : HoldsSlots cfg s ⟨.idle, fun _ => none⟩ q := by
  constructor
  · exact ⟨q.pool, h.empty, rfl⟩
  · intro n hn
    exact ⟨q.pending n, h.segreg n hn, rfl⟩

/-- From a sweep on, with the cache of the thread cleared, the small allocator answers requests like
the queues of the unmarked slots: in order, in full and without repetition, and with fresh blocks
taken one at a time. -/
theorem allocator_refines_queues {s : SmallHeap}
    (hsizes : ∀ b, b < cfg.blocksCount → isBitmapEmpty s.mem (cfg.blockAddr b) = false →
      InRange (headerSize cfg s.mem b)) (hns : ∀ n, n ∈ ns → InRange n) :
    ∃ q, Lists cfg (sweepSmallHeap cfg s) q ∧ ∃ least, ∀ fuel, least ≤ fuel →
      ∃ outs s' cache',
        Refines cfg (sweepSmallHeap cfg s) (fun _ => none) q ns fuel outs s' cache' ∧
        ∃ opened, Conserves (blockSlots cfg) q (serve (blockSlots cfg) q ns).2 outs opened := by
  obtain ⟨q, hq⟩ : ∃ q, Lists cfg (sweepSmallHeap cfg s) q := swept_lists s
  have hnone : ∀ x, x ∈ [] → Protected cfg (sweepSmallHeap cfg s) ⟨.idle, fun _ => none⟩
      (sweptPlace cfg (Fin 1) s.mem) x := fun x hmem => nomatch hmem
  obtain ⟨least, hall⟩ := allocateAll_refines (swept_solo_of_sizes hsizes) hnone hq.holds hns
  refine ⟨q, hq, least, fun fuel hfuel => ?_⟩
  obtain ⟨outs, s', cache', href, -⟩ := hall fuel hfuel
  refine ⟨outs, s', cache', href, ?_⟩
  rw [href.answers]
  exact serve_conserves q ns

end Sequence

/-- With one block, whose first slot of size 8 is marked, the next two slots of size 8 are given
out, and there is none of size 16. -/
theorem allocator_refines_queues_one_mark :
    (allocateAll oneBlock 2100 (sweepSmallHeap oneBlock ConcurrentAlloc.oneMark) (fun _ => none)
      [8, 8, 16]).map Prod.fst = some [(8, some 4184), (8, some 4192), (16, none)] ∧
    ∃ q, Lists oneBlock (sweepSmallHeap oneBlock ConcurrentAlloc.oneMark) q ∧
      ∃ least, ∀ fuel, least ≤ fuel → ∃ outs s' cache',
        Refines oneBlock (sweepSmallHeap oneBlock ConcurrentAlloc.oneMark) (fun _ => none) q
          [8, 8, 16] fuel outs s' cache' ∧
        ∃ opened, Conserves (blockSlots oneBlock) q
          (serve (blockSlots oneBlock) q [8, 8, 16]).2 outs opened := by
  constructor
  · decide +kernel
  · apply allocator_refines_queues
    · intro b hb _
      have hb0 : b = 0 := by
        simp only [oneBlock, Config.blocksCount, blockSize] at hb
        omega
      rw [hb0]
      have hsize : InRange (headerSize oneBlock ConcurrentAlloc.oneMark.mem 0) := by
        decide +kernel
      exact hsize
    · decide

end GarbageCollector.SlotQueues
