import GarbageCollector.Collector
import GarbageCollector.ConcurrentAlloc
import GarbageCollector.MarkFrame
import GarbageCollector.SoloCall

/-!
# What holds in every run of the collector

Outside `mark` and `sweep` each block is in one place and the mark bits lie in blocks with
objects; between `mark` and `sweep` the caches are empty. No large block ever leaves the large
heap.
-/

namespace GarbageCollector

open Bytes LinkedList

/-- The memories agree on the block headers. -/
def SameHeaders (cfg : Config) (m m' : Mem) : Prop :=
  ∀ b, b < cfg.blocksCount → ∀ x, cfg.blockAddr b ≤ x → x < cfg.blockAddr b + blockHeaderSize →
    m' x = m x

section Headers

variable {cfg : Config} {m m' : Mem} {s : SmallHeap} {l : Local} {place : Nat → Place (Fin 1)}
  {b j w value : Nat}

theorem SameHeaders.slider (h : SameHeaders cfg m m') (hb : b < cfg.blocksCount) :
    slider cfg m' b = slider cfg m b :=
  slider_congr fun x hlo hhi => h b hb x hlo (by simp only [blockHeaderSize]; omega)

theorem SameHeaders.headerSize (h : SameHeaders cfg m m') (hb : b < cfg.blocksCount) :
    headerSize cfg m' b = headerSize cfg m b :=
  headerSize_congr fun x hlo hhi =>
    h b hb x (by omega) (by simp only [blockHeaderSize]; omega)

theorem SameHeaders.bitmap (h : SameHeaders cfg m m') (hb : b < cfg.blocksCount) {x : Nat}
    (hx : InBitmap cfg b x) : m' x = m x := by
  obtain ⟨hlo, hhi⟩ := hx
  simp only [getBitmapAddr, bitmapBytesCount] at hlo hhi
  exact h b hb x (by omega) (by simp only [blockHeaderSize]; omega)

theorem SameHeaders.markBit (h : SameHeaders cfg m m') (hb : b < cfg.blocksCount)
    (hj : j < 8 * bitmapBytesCount) : markBit cfg m' b j = markBit cfg m b j :=
  markBit_congr hj fun _ hx => h.bitmap hb hx

theorem store64_sameHeaders (hw : Collector.Writable cfg w) :
    SameHeaders cfg m (store64 m w value) := by
  intro b hb x hlo hhi
  have hapart := hw b hb
  exact store64_of_not_mem (by omega)

/-- Words outside the block headers do not matter to the small allocator. -/
theorem Owned.setMem {th : Fin 1 → Local} (h : Owned cfg s th place)
    (hrest : ∀ t, (th t).pc.atRest) (same : SameHeaders cfg s.mem m') :
    Owned cfg (s.setMem m') th place where
  empty := h.empty
  segreg := h.segreg
  next_lt := h.next_lt
  cached := h.cached
  working := by
    intro t
    have hat := hrest t
    cases hpc : (th t).pc <;> simp only [hpc, Pc.atRest] at hat <;> simp only [Working, hpc]
  header := fun b hb => (h.header b hb).congr (same.slider hb) (same.headerSize hb)
  sizes := by
    intro b hb
    rw [SmallHeap.setMem_mem, same.headerSize hb]
    exact h.sizes b hb

theorem Solo.setMem (h : Solo cfg s l place) (hrest : l.pc.atRest)
    (same : SameHeaders cfg s.mem m') : Solo cfg (s.setMem m') l place where
  owned := h.owned.setMem (fun _ => hrest) same
  held := h.held
  bits := by
    intro b j hb hj hbit
    rw [SmallHeap.setMem_mem, same.markBit hb hj] at hbit
    rw [SmallHeap.setMem_mem, same.headerSize hb]
    obtain ⟨hrange, huse, hahead⟩ := h.bits b j hb hj hbit
    refine ⟨hrange, huse, fun hlt => (hahead hlt).keep (same.slider hb) ?_⟩
    rintro n sl c hpc
    rw [hpc] at hrest
    exact hrest
  unused := by
    intro b hb hp
    rw [SmallHeap.setMem_mem, same.headerSize hb]
    exact h.unused b hb hp

theorem Shielded.setMem {th : Fin 1 → Local} {marks : Prop} {n k : Nat}
    (h : Shielded cfg s th place marks b n k) (same : SameHeaders cfg s.mem m') :
    Shielded cfg (s.setMem m') th place marks b n k where
  block := h.block
  size := h.size
  whole := h.whole
  header := (same.headerSize h.block).trans h.header
  reason := by
    have hsl : slider cfg (s.setMem m').mem b = slider cfg s.mem b := same.slider h.block
    cases h.reason with
    | gone hp => exact .gone hp
    | passed hp hle => exact .passed hp (hle.trans_eq hsl.symm)
    | skipped hp hpc hle => exact .skipped hp hpc hle
    | marked hm hp hbit =>
      have hk : k < 8 * bitmapBytesCount := h.whole.trans (slotCount_lt h.size.1)
      exact .marked hm hp ((same.markBit h.block hk).trans hbit)

end Headers

section Rest

variable {cfg : Config} {m : Mem} {s : SmallHeap} {cache : NodesCache} {b j : Nat}

theorem init_markBit (hm : ZeroedSmallHeap cfg m) (hb : b < cfg.blocksCount)
    (hj : j < 8 * bitmapBytesCount) : markBit cfg (initSmallAllocator cfg m).mem b j = false := by
  obtain ⟨hlo, hhi⟩ : InBitmap cfg b (getBitmapAddr (cfg.blockAddr b) + j / 8) := bitmap_byte_in hj
  simp only [getBitmapAddr, bitmapBytesCount] at hlo hhi
  have hzero : (initSmallAllocator cfg m).mem (getBitmapAddr (cfg.blockAddr b) + j / 8) = 0#8 := by
    refine init_zero hm hb ?_ ?_ <;> simp only [getBitmapAddr, blockSize] <;> omega
  rw [markBit, hzero]
  simp

theorem init_solo (hm : ZeroedSmallHeap cfg m) :
    Solo cfg (initSmallAllocator cfg m) ⟨.idle, fun _ => none⟩ fun _ => .empty where
  owned := init_owned hm (fun _ => rfl) fun _ _ => rfl
  held := nofun
  bits := by
    intro b j hb hj hbit
    rw [init_markBit hm hb hj] at hbit
    cases hbit
  unused := fun _ hb _ => init_headerSize hm hb

/-- The mark bits that a sweep may meet. -/
structure Sweepable (cfg : Config) (m : Mem) : Prop where
  sizes : ∀ b, b < cfg.blocksCount → headerSize cfg m b ≤ maxObjectSize
  bits : ∀ b j, b < cfg.blocksCount → j < 8 * bitmapBytesCount → markBit cfg m b j = true →
    InRange (headerSize cfg m b)

theorem swept_headerSize (hb : b < cfg.blocksCount) (hj : j < 8 * bitmapBytesCount)
    (hbit : markBit cfg s.mem b j = true) :
    headerSize cfg (sweepSmallHeap cfg s).mem b = headerSize cfg s.mem b := by
  have he := ConcurrentAlloc.not_empty_of_bit hj hbit
  rw [(sweepSmallHeap_swept cfg s).sizes b hb, sweptSize, if_neg (by simp [he])]

theorem swept_solo_of_sizes
    (h : ∀ b, b < cfg.blocksCount → isBitmapEmpty s.mem (cfg.blockAddr b) = false →
      InRange (headerSize cfg s.mem b)) :
    Solo cfg (sweepSmallHeap cfg s) ⟨.idle, fun _ => none⟩ (sweptPlace cfg (Fin 1) s.mem) where
  owned := swept_owned s (fun _ => rfl) (fun _ _ => rfl) fun b hb he => (h b hb he).2
  held := by
    intro b n hp
    rw [sweptPlace] at hp
    split at hp <;> cases hp
  bits := by
    intro b j hb hj hbit
    rw [(sweepSmallHeap_swept cfg s).markBit hj] at hbit
    have he := ConcurrentAlloc.not_empty_of_bit hj hbit
    rw [swept_headerSize hb hj hbit, sweptPlace, if_neg (by simp [he])]
    exact ⟨h b hb he, trivial, fun _ => trivial⟩
  unused := by
    intro b hb hp
    rw [(sweepSmallHeap_swept cfg s).sizes b hb, sweptSize]
    rw [sweptPlace] at hp
    split at hp
    · rename_i he
      rw [if_pos he]
    · exact absurd trivial hp

/-- A block whose bitmap is not empty has a bit that is set. -/
theorem Sweepable.size_of_marked (h : Sweepable cfg s.mem) (hb : b < cfg.blocksCount)
    (he : isBitmapEmpty s.mem (cfg.blockAddr b) = false) : InRange (headerSize cfg s.mem b) := by
  by_contra hrange
  have hclear : isBitmapEmpty s.mem (cfg.blockAddr b) = true := by
    rw [isBitmapEmpty_iff]
    intro j hj
    exact Bool.eq_false_of_not_eq_true fun hbit => hrange (h.bits b j hb hj hbit)
  exact Bool.false_ne_true (he.symm.trans hclear)

theorem swept_solo (h : Sweepable cfg s.mem) :
    Solo cfg (sweepSmallHeap cfg s) ⟨.idle, fun _ => none⟩ (sweptPlace cfg (Fin 1) s.mem) :=
  swept_solo_of_sizes fun _ hb he => h.size_of_marked hb he

end Rest

namespace Collector

/-- What holds of the collector outside `mark` and `sweep`. -/
structure Between (cfg : Config) (g : Gc) : Prop where
  solo : ∃ place, Solo cfg g.heap.small ⟨.idle, g.nodesCache⟩ place
  inside : NodesInside cfg g.heap.large.nodes
  stack : g.stack.data = []

/-- What holds of the collector between `mark` and `sweep`. -/
structure Marked (cfg : Config) (g : Gc) : Prop where
  small : Sweepable cfg g.heap.mem
  cache : g.nodesCache = fun _ => none
  inside : NodesInside cfg g.heap.large.nodes
  stack : g.stack.data = []

def Inv (cfg : Config) (s : State) : Prop :=
  match s.phase with
  | .marked _ => Marked cfg s.gc
  | _ => Between cfg s.gc

section Runs

variable {cfg : Config} {roots : Roots cfg} {ok : State → Action → Prop} {fuel n : Nat}
  {g g' : Gc} {s s' : State} {res : Option Nat}

theorem allocate_between (h : Between cfg g)
    (hrun : allocateNewObject cfg fuel g n = some (g', res)) : Between cfg g' := by
  obtain ⟨place, hsolo⟩ := h.solo
  rw [allocateNewObject] at hrun
  split at hrun
  · rename_i hn
    obtain ⟨⟨small, cache, r⟩, hsmall, he⟩ := Option.map_eq_some_iff.mp hrun
    cases he
    obtain ⟨place', ha, -⟩ := attempt_run (Q := fun _ _ _ => True) hsolo hn trivial
      (fun _ _ _ _ _ _ _ _ => trivial) hsmall
    exact ⟨⟨place', ha.solo.idle trivial⟩, h.inside, h.stack⟩
  · split at hrun
    · obtain ⟨⟨large, r⟩, hlarge, he⟩ := Option.map_eq_some_iff.mp hrun
      cases he
      exact ⟨⟨place, hsolo⟩, allocateLargeObject_inside h.inside hlarge, h.stack⟩
    · cases hrun
      exact h

theorem clearCache_solo {small : SmallHeap} {l : Local} {place : Nat → Place (Fin 1)}
    (h : Solo cfg small l place) : clearCache l.nodesCache = fun _ => none := by
  funext m
  exact ConcurrentAlloc.clearCache_none (fun k b hc => (h.owned.cached 0 k b hc).1.lt) m

theorem stopAndMark_marked (h : Between cfg g)
    (hrun : stopAndMark cfg fuel roots.segments g = some g') :
    Marked cfg g' ∧ MarkFrame cfg g.heap g'.heap := by
  obtain ⟨place, hsolo⟩ := h.solo
  obtain ⟨m, hmark, rfl⟩ := Option.map_eq_some_iff.mp hrun
  obtain ⟨hframe, hempty⟩ := mark_frame (m := ⟨g.heap, g.stack⟩)
    h.inside.occupied hmark h.stack
  refine ⟨⟨⟨fun b hb => ?_, fun b j hb hj hbit => ?_⟩, ?_, ?_, hempty⟩, hframe⟩
  · rw [hframe.same.headerSize]
    exact hsolo.owned.sizes b hb
  · rw [hframe.same.headerSize]
    rcases hframe.bits b j hb hj hbit with hold | hrange
    · exact (hsolo.bits b j hb hj hold).1
    · exact hrange
  · exact clearCache_solo hsolo
  · exact hframe.same.nodes.inside h.inside

theorem sweep_between (h : Marked cfg g) (hrun : sweep cfg fuel g = some g') :
    Between cfg g' := by
  obtain ⟨large, hlarge, rfl⟩ := Option.map_eq_some_iff.mp hrun
  have hsolo := swept_solo h.small
  rw [← h.cache] at hsolo
  exact ⟨⟨_, hsolo⟩, sweepLargeHeap_inside h.inside hlarge, h.stack⟩

theorem store_between (h : Between cfg g) {w value : Nat} (hw : Writable cfg w) :
    Between cfg (Gc.store g w value) := by
  obtain ⟨place, hsolo⟩ := h.solo
  refine ⟨⟨place, ?_⟩, h.inside, h.stack⟩
  have hset : Solo cfg (g.heap.small.setMem (store64 g.heap.mem w value)) ⟨.idle, g.nodesCache⟩
      place :=
    hsolo.setMem trivial (store64_sameHeaders hw)
  exact hset

theorem attempted_gc (s : State) (n : Nat) (phase : Phase) (p : Gc × Option Nat) :
    (s.attempted n phase p).gc = p.1 := by
  rw [State.attempted]
  split <;> rfl

theorem inv_of_between (h : Between cfg s.gc) (hphase : ∀ m, s.phase ≠ .marked m) :
    Inv cfg s := by
  rw [Inv]
  split
  · rename_i m hm
    exact absurd hm (hphase m)
  · exact h

theorem attempted_inv {phase : Phase} {p : Gc × Option Nat} (h : Between cfg p.1)
    (hphase : ∀ m, phase ≠ .marked m) : Inv cfg (s.attempted n phase p) := by
  refine inv_of_between (attempted_gc s n phase p ▸ h) ?_
  rw [State.attempted]
  split
  · simp
  · exact hphase

theorem Inv.between (h : Inv cfg s) (hphase : ∀ m, s.phase ≠ .marked m) : Between cfg s.gc := by
  rw [Inv] at h
  split at h
  · rename_i m hm
    exact absurd hm (hphase m)
  · exact h

theorem Inv.marked (h : Inv cfg s) (hphase : s.phase = .marked n) : Marked cfg s.gc := by
  rwa [Inv, hphase] at h

theorem outcome_inv {a : Action} (h : Inv cfg s) (hs : Outcome cfg roots s a s') :
    Inv cfg s' := by
  cases hs with
  | refused => exact h
  | malloc hphase _ _ hrun =>
    exact attempted_inv (allocate_between (h.between (by simp [hphase])) hrun) nofun
  | mark hphase _ hrun => exact (stopAndMark_marked (h.between (by simp [hphase])) hrun).1
  | sweep hphase _ hrun => exact sweep_between (h.marked hphase) hrun
  | retry hphase _ hrun =>
    exact attempted_inv (allocate_between (h.between (by simp [hphase])) hrun) nofun
  | store hphase hw =>
    refine inv_of_between (store_between (h.between (by simp [hphase])) hw) ?_
    simp [State.store, hphase]

theorem start_inv (h : Start cfg s) : Inv cfg s := by
  obtain ⟨m, hm, rfl⟩ := h
  exact ⟨⟨_, init_solo hm⟩, initLargeAllocator_inside cfg, rfl⟩

theorem reachable_inv (h : Reachable cfg roots ok s) : Inv cfg s :=
  h.invariant (fun _ hi => start_inv hi) fun _ _ _ hi _ hs => outcome_inv hi (step_outcome hs)

end Runs

end Collector

end GarbageCollector
