import GarbageCollector.CollectorInvariant
import GarbageCollector.ResolvedRange

/-!
# Blocks that a call gives up

The walk of `allocate_small_object` clears the marks of the whole slots that it passes, so a block
that has no further room carries no mark. Only `get_object` on an address behind the last whole slot
lets `mark_object` set a bit that no walk reaches.
-/

namespace GarbageCollector.AbandonedBlocks

open Bytes Transition
open ConcurrentAlloc (State remark remark_same step_outcome)
open ResolvedRange (BehindSlots slot_lt_of_not_behind)

/-- A large heap whose occupied blocks lie in its mapping. -/
structure LargeInside (cfg : Config) where
  large : LargeAllocator
  inside : ∀ m, OccupiedInside cfg ⟨m, large⟩

section Functions

variable (cfg : Config) (fuel : Nat)

/-- `get_object` on a word and `mark_object` on what it finds. -/
def markWord (h : Heap) (w : Nat) : Option Heap :=
  (getObject cfg fuel h w).bind fun
    | none => some h
    | some o => markObject cfg fuel h o

def markWords (h : Heap) (ws : List Nat) : Option Heap := ws.foldlM (markWord cfg fuel) h

end Functions

inductive Action (cfg : Config) (n : Nat) where
  | call (t : Fin n) (size : Nat)
  | step (t : Fin n)
  | ret (t : Fin n)
  /-- A mark phase that resolves `words`, and the sweep after it. -/
  | collect (large : LargeInside cfg) (fuel : Nat) (words : List Nat)

def step (cfg : Config) {n : Nat} (s : State n) : Action cfg n → Option (State n)
  | .call t size => ConcurrentAlloc.step cfg s (.call t size)
  | .step t => ConcurrentAlloc.step cfg s (.step t)
  | .ret t => ConcurrentAlloc.step cfg s (.ret t)
  | .collect large fuel words =>
    (markWords cfg fuel ⟨s.heap, large.large⟩ words).bind fun h =>
      ConcurrentAlloc.step cfg s (.collect h.mem)

/-- No resolved word lies behind the last whole slot of a block. -/
def MarksWhole (cfg : Config) {n : Nat} (s : State n) : Action cfg n → Prop
  | .collect large _ words => ∀ w, w ∈ words → ¬ BehindSlots cfg ⟨s.heap, large.large⟩ w
  | _ => True

/-- The next step of thread `t` stops holding block `b`. -/
def GivesUp (cfg : Config) {n : Nat} (s : State n) (t : Fin n) (b : Nat) : Prop :=
  match (s.thread t).pc with
  | .examine m c sl _ => c = b ∧ ¬ sl + getSizeWithAlignment m ≤ cfg.blockAddr c + blockSize
  | .finish m c =>
    c = b ∧ slider cfg s.heap.mem c + getSizeWithAlignment m ≥ cfg.blockAddr c + blockSize
  | _ => False

instance (cfg : Config) (h : Heap) (a : Nat) : Decidable (BehindSlots cfg h a) := by
  unfold BehindSlots
  infer_instance

instance (cfg : Config) {n : Nat} (s : State n) (a : Action cfg n) :
    Decidable (MarksWhole cfg s a) := by
  cases a <;> simp only [MarksWhole] <;> infer_instance

def decideGivesUp (cfg : Config) (mem : Bytes.Mem) (b : Nat) (pc : Pc) :
    Decidable (match pc with
      | .examine m c sl _ => c = b ∧ ¬ sl + getSizeWithAlignment m ≤ cfg.blockAddr c + blockSize
      | .finish m c =>
        c = b ∧ slider cfg mem c + getSizeWithAlignment m ≥ cfg.blockAddr c + blockSize
      | _ => False) :=
  match pc with
  | .examine _ _ _ _ | .finish _ _ => inferInstanceAs (Decidable (_ ∧ _))
  | .idle | .enter _ | .takeSegreg _ | .takeEmpty _ | .initHeader _ _ | .fillList _ _
  | .fillNode _ _ _ | .returned _ _ => isFalse id

instance (cfg : Config) {n : Nat} (s : State n) (t : Fin n) (b : Nat) :
    Decidable (GivesUp cfg s t b) :=
  decideGivesUp cfg s.heap.mem b (s.thread t).pc

/-- Every mark belongs to a whole slot that no walk has passed. -/
structure Inv (cfg : Config) {n : Nat} (s : State n) (place : Nat → Place (Fin n)) : Prop where
  owned : Owned cfg s.heap s.thread place
  bits : ∀ b j, b < cfg.blocksCount → j < 8 * bitmapBytesCount →
    markBit cfg s.heap.mem b j = true →
    InRange (headerSize cfg s.heap.mem b) ∧ (place b).inUse ∧
      j < slotCount (headerSize cfg s.heap.mem b) ∧
      AheadOfWalk cfg s.heap s.thread b j (place b)

/-- `h'` is `h` with more marks, all of them on whole slots. -/
structure MarksSlots (cfg : Config) (h h' : Heap) : Prop where
  same : SameButMarks cfg h h'
  bits : ∀ b j, b < cfg.blocksCount → j < 8 * bitmapBytesCount → markBit cfg h'.mem b j = true →
    markBit cfg h.mem b j = true ∨
      InRange (headerSize cfg h.mem b) ∧ j < slotCount (headerSize cfg h.mem b)

section Marks

variable {cfg : Config} {fuel : Nat} {h h' h'' : Heap} {w o a b k : Nat} {ws : List Nat}

theorem MarksSlots.refl : MarksSlots cfg h h :=
  ⟨SameButMarks.refl, fun _ _ _ _ hbit => Or.inl hbit⟩

theorem MarksSlots.trans (hs : MarksSlots cfg h h') (hs' : MarksSlots cfg h' h'') :
    MarksSlots cfg h h'' where
  same := hs.same.trans hs'.same
  bits := by
    intro b j hb hj hbit
    rcases hs'.bits b j hb hj hbit with hold | hnew
    · exact hs.bits b j hb hj hold
    · rw [hs.same.headerSize] at hnew
      exact Or.inr hnew

theorem behindSlots_congr (same : SameButMarks cfg h h') :
    BehindSlots cfg h' w ↔ BehindSlots cfg h w := by
  simp only [BehindSlots, same.headerSize]

/-- A word of the large heap resolves to a block of the large heap. -/
theorem inLarge_of_getObject (hi : OccupiedInside cfg h) (hl : cfg.InLarge w)
    (hg : getObject cfg fuel h w = some (some o)) : cfg.InLarge o := by
  simp only [getObject, if_pos hl, Option.map_eq_some_iff] at hg
  obtain ⟨found, hfound, ho⟩ := hg
  cases found with
  | none => cases ho
  | some i =>
    cases ho
    obtain ⟨hbelow, hlo, hhi⟩ := extSearchBst_below hfound
    rcases hi i hbelow with hz | ⟨hstart, hend⟩
    · simp only [Header.stop] at hhi
      omega
    · exact ⟨hstart, by omega⟩

theorem markObject_large (hl : cfg.InLarge o) (hm : markObject cfg fuel h o = some h') :
    h'.mem = h.mem := by
  simp only [markObject, if_pos hl, Option.map_eq_some_iff] at hm
  obtain ⟨found, -, rfl⟩ := hm
  cases found <;> rfl

theorem markObject_slot (hs : SlotStart cfg h b k o) (hk : k < slotCount (headerSize cfg h.mem b))
    (hm : markObject cfg fuel h o = some h') : MarksSlots cfg h h' := by
  have hin := hs.inSmall
  rw [markObject, if_neg (cfg.not_inLarge_of_inSmall hin), if_pos hin] at hm
  cases hm
  refine ⟨setMem_same hs, fun c j hc hj hbit => ?_⟩
  have hset : markBit cfg (setBitByAddress cfg h.mem o 1#8) c j = _ :=
    markBit_setBitByAddress hs.blockAddr_le hs.inBlock true hj
  rw [hs.index] at hset
  have hbit' := hset.symm.trans hbit
  split at hbit'
  · rename_i heq
    rw [heq.1, heq.2]
    exact Or.inr ⟨hs.size, hk⟩
  · exact Or.inl hbit'

theorem markWord_marks (hi : OccupiedInside cfg h) (hnot : ¬ BehindSlots cfg h w)
    (hrun : markWord cfg fuel h w = some h') : MarksSlots cfg h h' := by
  obtain ⟨found, hfound, hmark⟩ := Option.bind_eq_some_iff.mp hrun
  cases found with
  | none =>
    cases hmark
    exact .refl
  | some o =>
    by_cases hl : cfg.InLarge w
    · have hmem := markObject_large (inLarge_of_getObject hi hl hfound) hmark
      refine ⟨(markObject_frame (getObject_start hi hfound) hmark).same, fun b j _ _ hbit => ?_⟩
      rw [hmem] at hbit
      exact Or.inl hbit
    · by_cases hs : cfg.InSmall w
      · obtain ⟨b, k, hslot, how, -, hwb⟩ := getObject_slot hs hfound
        exact markObject_slot hslot (slot_lt_of_not_behind hnot hslot how hwb) hmark
      · simp only [getObject, if_neg hl, if_neg hs] at hfound
        cases hfound

theorem markWords_marks (hi : OccupiedInside cfg h)
    (hnot : ∀ w, w ∈ ws → ¬ BehindSlots cfg h w)
    (hrun : markWords cfg fuel h ws = some h') : MarksSlots cfg h h' := by
  induction ws generalizing h with
  | nil =>
    cases hrun
    exact .refl
  | cons w ws ih =>
    rw [markWords, List.foldlM_cons] at hrun
    obtain ⟨h₁, hword, hrest⟩ := Option.bind_eq_some_iff.mp hrun
    have hfirst := markWord_marks hi (hnot w List.mem_cons_self) hword
    refine hfirst.trans (ih (hi.congr hfirst.same) (fun v hv => ?_) hrest)
    rw [behindSlots_congr hfirst.same]
    exact hnot v (List.mem_cons_of_mem w hv)

theorem remark_of_same {m m' : Mem} (same : SameOutsideBitmaps cfg m m') :
    remark cfg m m' = m' := by
  funext x
  rw [remark]
  split
  · rfl
  · rename_i hx
    exact (same x fun i hi hin => hx ⟨i, hi, hin⟩).symm

end Marks

section Runs

variable {cfg : Config} {n : Nat} {s s' : State n} {place : Nat → Place (Fin n)} {t : Fin n}
  {b m : Nat}

theorem start_inv (h : ConcurrentAlloc.Start cfg n s) : ∃ place, Inv cfg s place := by
  obtain ⟨place, hinv⟩ := ConcurrentAlloc.start_inv h
  obtain ⟨m, hm, rfl⟩ := h
  refine ⟨place, hinv.owned, fun b j hb hj hbit => ?_⟩
  have hclear := init_markBit hm hb hj
  exact absurd (hclear.symm.trans hbit) Bool.false_ne_true

theorem Inv.turn (h : Inv cfg s place) {pc : Pc} (hpc : ∀ m, pc = .enter m → InRange m)
    (hnew : pc.atRest ∨ ∃ m, pc = .enter m) : Inv cfg (ConcurrentAlloc.goto s t pc) place where
  owned := h.owned.turn hpc hnew
  bits := by
    intro b j hb hj hbit
    obtain ⟨hrange, huse, hlt, hahead⟩ := h.bits b j hb hj hbit
    exact ⟨hrange, huse, hlt, hahead.turn hnew⟩

theorem step_inv {h' : SmallHeap} {l' : Local} (h : Inv cfg s place)
    (hl : LocalStep cfg s.heap (s.thread t) h' l') :
    Inv cfg { s with
      heap := h'
      thread := Function.update s.thread t l'
      returned := ConcurrentAlloc.answer l'.pc ++ s.returned }
      (placeAfter cfg t s.heap (s.thread t) place) where
  owned := hl.owned h.owned
  bits := by
    intro b j hb hj hbit
    obtain ⟨hrange, huse, hlt, hahead⟩ := h.bits b j hb hj (hl.bits h.owned hj hbit)
    have hfresh : place b ≠ .fresh t := by
      intro hp
      rw [hp] at huse
      exact huse
    have hsize : headerSize cfg h'.mem b = headerSize cfg s.heap.mem b :=
      hl.header_kept h.owned hfresh
    rw [hsize]
    exact ⟨hrange, (hl.moved h.owned).in_use h.owned huse, hlt,
      hl.aheadOfWalk h.owned hlt huse hahead hbit⟩

/-- After a sweep the marked blocks are on the segregated lists. -/
theorem collect_inv {h' : Heap} (h : Inv cfg s place) {large : LargeAllocator}
    (hm : MarksSlots cfg ⟨s.heap, large⟩ h') :
    Inv cfg {
      heap := sweepSmallHeap cfg (s.heap.setMem (remark cfg s.heap.mem h'.mem))
      thread := fun u => ⟨.idle, clearCache (s.thread u).nodesCache⟩
      returned := []
      sweptMem := remark cfg s.heap.mem h'.mem }
      (sweptPlace cfg (Fin n) (remark cfg s.heap.mem h'.mem)) where
  owned := by
    refine swept_owned _ (fun _ => rfl) (fun u => ?_) fun b hb _ => ?_
    · exact ConcurrentAlloc.clearCache_none fun m b hc => (h.owned.cached u m b hc).1.lt
    · rw [SmallHeap.setMem_mem, (remark_same _ _).headerSize]
      exact h.owned.sizes b hb
  bits := by
    intro b j hb hj hbit
    have hsame : SameOutsideBitmaps cfg s.heap.mem h'.mem := hm.same.mem
    rw [remark_of_same hsame] at hbit ⊢
    have hold : markBit cfg h'.mem b j = true := by
      rwa [(sweepSmallHeap_swept cfg (s.heap.setMem h'.mem)).markBit hj] at hbit
    have he := ConcurrentAlloc.not_empty_of_bit hj hold
    have hsize : headerSize cfg h'.mem b = headerSize cfg s.heap.mem b := hsame.headerSize
    have hwhole : InRange (headerSize cfg s.heap.mem b) ∧
        j < slotCount (headerSize cfg s.heap.mem b) := by
      rcases hm.bits b j hb hj hold with hprev | hnew
      · obtain ⟨hrange, -, hlt, -⟩ := h.bits b j hb hj hprev
        exact ⟨hrange, hlt⟩
      · exact hnew
    rw [swept_headerSize (s := s.heap.setMem h'.mem) hb hj hold, SmallHeap.setMem_mem, hsize,
      sweptPlace, if_neg (by simp [he])]
    exact ⟨hwhole.1, trivial, hwhole.2, trivial⟩

theorem inv_step {a : Action cfg n} (h : ∃ place, Inv cfg s place) (hok : MarksWhole cfg s a)
    (hs : step cfg s a = some s') : ∃ place, Inv cfg s' place := by
  obtain ⟨place, h⟩ := h
  cases a with
  | call t size =>
    have hstep : ConcurrentAlloc.step cfg s (.call t size) = some s' := hs
    cases step_outcome hstep with
    | call hidle hsize =>
      refine ⟨place, h.turn ?_ (Or.inr ⟨size, rfl⟩)⟩
      rintro m hm
      cases hm
      exact hsize
  | step t =>
    have hstep : ConcurrentAlloc.step cfg s (.step t) = some s' := hs
    cases step_outcome hstep with
    | step hl => exact ⟨_, step_inv h hl⟩
  | ret t =>
    have hstep : ConcurrentAlloc.step cfg s (.ret t) = some s' := hs
    cases step_outcome hstep with
    | ret hpc => exact ⟨place, h.turn nofun (Or.inl trivial)⟩
  | collect large fuel words =>
    obtain ⟨h', hmark, hcollect⟩ := Option.bind_eq_some_iff.mp hs
    have hm := markWords_marks (large.inside s.heap) hok hmark
    cases step_outcome hcollect with
    | collect hidle => exact ⟨_, collect_inv h hm⟩

theorem reachable_inv
    (h : Transition.Reachable (ConcurrentAlloc.Start cfg n) (step cfg) (MarksWhole cfg) s) :
    ∃ place, Inv cfg s place :=
  h.invariant (fun _ hi => start_inv hi) fun _ _ _ hi hok hs => inv_step hi hok hs

theorem placeAfter_givesUp (hgive : GivesUp cfg s t b) :
    placeAfter cfg t s.heap (s.thread t) place b = .abandoned := by
  cases hpc : (s.thread t).pc <;> simp only [GivesUp, hpc] at hgive
  · obtain ⟨rfl, hroom⟩ := hgive
    simp only [placeAfter, hpc, if_neg hroom, Function.update_self]
  · obtain ⟨rfl, hroom⟩ := hgive
    simp only [placeAfter, hpc, if_pos hroom, Function.update_self]

theorem givesUp_block (h : Inv cfg s place) (hgive : GivesUp cfg s t b) :
    b < cfg.blocksCount := by
  cases hpc : (s.thread t).pc <;> simp only [GivesUp, hpc] at hgive
  · obtain ⟨rfl, -⟩ := hgive
    obtain ⟨-, -, hlt, -⟩ := h.owned.at t hpc
    exact hlt
  · obtain ⟨rfl, -⟩ := hgive
    obtain ⟨-, -, hlt, -⟩ := h.owned.at t hpc
    exact hlt

/-- A call that stops holding a block leaves no mark in it. -/
theorem abandoned_unmarked
    (h : Transition.Reachable (ConcurrentAlloc.Start cfg n) (step cfg) (MarksWhole cfg) s)
    (hgive : GivesUp cfg s t b) (hs : step cfg s (.step t) = some s') :
    NoMarks cfg s'.heap.mem b := by
  obtain ⟨place, hinv⟩ := reachable_inv h
  have hb := givesUp_block hinv hgive
  have hgone : placeAfter cfg t s.heap (s.thread t) place b = .abandoned :=
    placeAfter_givesUp hgive
  have hstep : ConcurrentAlloc.step cfg s (.step t) = some s' := hs
  cases step_outcome hstep with
  | step hl =>
    intro j hj
    refine Bool.eq_false_of_not_eq_true fun hbit => ?_
    obtain ⟨-, -, -, hahead⟩ := (step_inv hinv hl).bits b j hb hj hbit
    rw [hgone] at hahead
    exact hahead

end Runs

/-- A large heap without blocks. -/
def noLarge (cfg : Config) : LargeInside cfg where
  large := ⟨fun _ => ⟨⟨0, 0, false⟩, none, none⟩, none, none, none⟩
  inside := fun _ _ hb => nomatch hb

/-- A call for `size` that gets a fresh block, and a mark phase that resolves one word. -/
def callAndMark (t : Fin 1) (size word : Nat) : List (Action oneBlock 1) :=
  .call t size :: List.replicate 5 (.step t) ++ [.ret t, .collect (noLarge oneBlock) 1 [word]]

theorem oneBlock_start (n : Nat) :
    ConcurrentAlloc.Start oneBlock n (ConcurrentAlloc.initial oneBlock n fun _ => 0#8) :=
  ⟨_, fun _ _ _ => rfl, rfl⟩

/-- The first of two slots is marked, and the next call gives out the second one. -/
theorem abandoned_unmarked_last_slot :
    ∃ s s' : State 1, markBit oneBlock s.sweptMem 0 0 = true ∧ GivesUp oneBlock s 0 0 ∧
      step oneBlock s (.step 0) = some s' ∧ NoMarks oneBlock s'.heap.mem 0 := by
  have hstart : Transition.Reachable (ConcurrentAlloc.Start oneBlock 1) (step oneBlock)
      (MarksWhole oneBlock) _ := .init (oneBlock_start 1)
  obtain ⟨s, hr, hmark, hgive, hstep⟩ := hstart.exists_of_run
    (callAndMark 0 2008 4180 ++ .call 0 2008 :: List.replicate 4 (.step 0))
    (fun s => markBit oneBlock s.sweptMem 0 0 = true ∧ GivesUp oneBlock s 0 0 ∧
      (step oneBlock s (.step 0)).isSome = true) (by decide +kernel)
  obtain ⟨s', hs⟩ := Option.isSome_iff_exists.mp hstep
  exact ⟨s, s', hmark, hgive, hs, abandoned_unmarked hr hgive hs⟩

/-- The word 8180 lies behind the two slots of size 2000; the mark it leads to outlasts the walk
through the block. -/
theorem mark_behind_slots_outlasts :
    ¬ ∀ (cfg : Config) (n : Nat) (s s' : State n) (t : Fin n) (b : Nat),
      Transition.Reachable (ConcurrentAlloc.Start cfg n) (step cfg) anyStep s →
        GivesUp cfg s t b → step cfg s (.step t) = some s' → NoMarks cfg s'.heap.mem b := by
  intro h
  have hstart : Transition.Reachable (ConcurrentAlloc.Start oneBlock 1) (step oneBlock) anyStep _ :=
    .init (oneBlock_start 1)
  obtain ⟨s, hr, hgive, hstep⟩ := hstart.exists_of_run
    (callAndMark 0 2000 8180 ++ (.call 0 2000 :: List.replicate 4 (.step 0)) ++
      (.ret 0 :: .call 0 2000 :: List.replicate 3 (.step 0)) ++ [.ret 0, .call 0 2000, .step 0])
    (fun s => GivesUp oneBlock s 0 0 ∧ (step oneBlock s (.step 0)).any
      (fun s' => markBit oneBlock s'.heap.mem 0 2) = true) (by decide +kernel)
  cases hs : step oneBlock s (.step 0) with
  | none => simp [hs] at hstep
  | some s' =>
    rw [hs] at hstep
    have hclear := h oneBlock 1 s s' 0 0 hr hgive hs 2 (by decide)
    exact Bool.false_ne_true (hclear.symm.trans hstep)

end GarbageCollector.AbandonedBlocks
