import GarbageCollector.CallFrame
import GarbageCollector.Memops
import GarbageCollector.SafeRuns

/-!
# `gc_realloc`

The local `obj` of `gc_realloc` lives in a root word, so the object that it copies survives the
collection that `gc_malloc` may run. The copy takes the size of the old object whatever the new
size is: a request for less than the old object writes behind the new one.
-/

namespace GarbageCollector

open Bytes

section Functions

variable (cfg : Config) (fuel : Nat) (segments : List (Nat × Nat))

/-- `frame` is the address of the local `obj`. -/
def gcRealloc (frame : Nat) (g : Gc) (memblock size : Nat) : Option (Gc × Option Nat) :=
  if memblock = 0 then gcMalloc cfg fuel segments g size
  else
    (getObject cfg fuel g.heap memblock).bind fun
      | none => some (g, none)
      | some obj =>
        (gcMalloc cfg fuel segments (Collector.Gc.store g frame obj) size).bind fun p =>
          match p.2 with
          | none => some (p.1, none)
          | some res =>
            (getObjectSize cfg fuel p.1.heap obj).map fun count =>
              ({ p.1 with heap := p.1.heap.setMem (gcMemcpy p.1.heap.mem res obj count) },
                some res)

end Functions

section Objects

variable {cfg : Config} {h : Heap} {o m x : Nat}

/-- An object lies in one of the heaps. -/
theorem Lies.inside (hin : NodesInside cfg h.large.nodes) (ho : Lies cfg h o m) :
    (cfg.smallStart ≤ o ∧ o + m ≤ cfg.smallEnd) ∨ (cfg.largeStart ≤ o ∧ o + m ≤ cfg.largeEnd) := by
  rcases ho with ⟨p, ho, rfl⟩ | ⟨ho, hocc⟩
  · exact Or.inl ho.inside
  · exact Or.inr (hocc.inside hin ho)

theorem not_headerByte_of_apart (hx : x < cfg.smallStart ∨ cfg.smallEnd ≤ x) :
    ¬ HeaderByte cfg x := by
  rintro ⟨b, hb, hlo, hhi⟩
  have hend := cfg.blockAddr_end_le hb
  simp only [Config.blockAddr, blockHeaderSize, blockSize] at *
  omega

/-- No byte of an object is in a block header. -/
theorem Lies.not_headerByte (hin : NodesInside cfg h.large.nodes) (ho : Lies cfg h o m)
    (hlo : o ≤ x) (hhi : x < o + m) : ¬ HeaderByte cfg x := by
  rcases ho with ⟨p, ho, rfl⟩ | ⟨ho, hocc⟩
  · obtain ⟨b, k, hs, hk, hsize⟩ := ho.slotStart
    have hlow := hs.low
    have hend := (cfg.lt_slotCount_iff (i := b) hs.size.1).mp (hsize ▸ hk)
    rw [cfg.slotAddr_succ, ← hs.addr, hsize] at hend
    rintro ⟨c, -, hlo', hhi'⟩
    by_cases hbc : b = c
    · subst hbc
      omega
    · have hap := cfg.blockAddr_ne hbc
      simp only [blockHeaderSize, blockSize] at *
      omega
  · obtain ⟨hstart, hend⟩ := hocc.inside hin ho
    have hd := cfg.heaps_disjoint
    apply not_headerByte_of_apart
    simp only [Config.smallEnd, Config.largeEnd] at *
    omega

end Objects

namespace Realloc

open Collector
open FailedAllocation (oneRoot start start_start Fails fails_of_none)
open SafeRuns (Checked faultless_of_checked)
open LargeTiling (FreesOneSided)
open LargeSweep (flagsOf)
open ResolvedRange (BehindSlots)

/-- The collector between two steps of a call, with the trees intact. -/
structure Intact (cfg : Config) (g : Gc) : Prop where
  between : Between cfg g
  trees : ∃ free occupied spare, Trees cfg True g.heap.large free occupied spare ∧ Clear occupied

/-- The step keeps the trees of the large allocator. -/
def KeepsTrees (s : State) (a : Action) : Prop := TakesChildless s a ∧ SweepsOneSided s a

/-- The attempts and the sweep of a call of `gc_malloc` keep the trees. -/
structure CallKeepsTrees (cfg : Config) (fuel : Nat) (segments : List (Nat × Nat)) (g : Gc)
    (n : Nat) : Prop where
  first : maxObjectSize < n → FitsChildless g.heap.large (getSizeWithAlignment n)
  sweep : ∀ g₁ g₂, allocateNewObject cfg fuel g n = some (g₁, none) →
    stopAndMark cfg fuel segments g₁ = some g₂ →
      FreesOneSided (flagsOf g₂.heap.large.nodes) g₂.heap.large.nodes g₂.heap.large.occupiedRoot
  second : ∀ g₁ g₃, allocateNewObject cfg fuel g n = some (g₁, none) →
    callServiceThread cfg fuel segments g₁ = some g₃ →
      maxObjectSize < n → FitsChildless g₃.heap.large (getSizeWithAlignment n)

section Call

variable {cfg : Config} {roots : Roots cfg} {fuel n o m w : Nat} {g g' : Gc} {res : Option Nat}
  {seg : Nat × Nat} {x : Nat × Nat}

theorem Intact.attempt (h : Intact cfg g) (hfuel : depth cfg < fuel)
    (hfit : maxObjectSize < n → FitsChildless g.heap.large (getSizeWithAlignment n))
    (hrun : allocateNewObject cfg fuel g n = some (g', res)) : Intact cfg g' := by
  obtain ⟨free, occupied, spare, ht, hclear⟩ := h.trees
  obtain ⟨hsmall, hlarge⟩ := allocate_extended ht hclear hfuel hfit hrun
  constructor
  · exact allocate_between h.between hrun
  · rcases Nat.lt_or_ge maxObjectSize n with hlt | hle
    · exact (hlarge hlt).trees
    · rw [hsmall hle]
      exact h.trees

theorem allocate_sited (h : Between cfg g) (hx : Sited cfg g.heap.mem x)
    (hrun : allocateNewObject cfg fuel g n = some (g', res)) : Sited cfg g'.heap.mem x := by
  obtain ⟨place, hsolo⟩ := h.solo
  rw [allocateNewObject] at hrun
  split at hrun
  · rename_i hn
    obtain ⟨⟨small, cache, r⟩, hsmall, he⟩ := Option.map_eq_some_iff.mp hrun
    cases he
    exact call_sited hsolo hn hx hsmall
  · split at hrun
    · obtain ⟨⟨large, r⟩, -, he⟩ := Option.map_eq_some_iff.mp hrun
      cases he
      exact hx
    · cases hrun
      exact hx

/-- An attempt leaves an object in place and returns its start, or a range apart from it. -/
theorem attempt_lies (h : Intact cfg g) (hfuel : depth cfg < fuel)
    (hfit : maxObjectSize < n → FitsChildless g.heap.large (getSizeWithAlignment n))
    (ho : Lies cfg g.heap o m) (hrun : allocateNewObject cfg fuel g n = some (g', res)) :
    Lies cfg g'.heap o m ∧
      ∀ r, res = some r → r = o ∨ r + getSizeWithAlignment n ≤ o ∨ o + m ≤ r := by
  obtain ⟨free, occupied, spare, ht, hclear⟩ := h.trees
  obtain ⟨hsmall, hlarge⟩ := allocate_extended ht hclear hfuel hfit hrun
  have hafter := h.attempt hfuel hfit hrun
  have hkept : Lies cfg g'.heap o m := by
    rcases ho with ⟨p, ho, hp⟩ | ⟨ho, hocc⟩
    · exact Or.inl ⟨p, allocate_sited h.between ho hrun, hp⟩
    · rcases Nat.lt_or_ge maxObjectSize n with hlt | hle
      · exact Or.inr ⟨ho, (hlarge hlt).kept _ _ hocc⟩
      · rw [← hsmall hle] at hocc
        exact Or.inr ⟨ho, hocc⟩
  refine ⟨hkept, ?_⟩
  rintro r rfl
  by_cases hr : r = o
  · exact Or.inl hr
  · obtain ⟨place, hsolo⟩ := h.between.solo
    have hnone : AllProtected cfg g [] := ⟨place, hsolo, fun _ hx => nomatch hx⟩
    obtain ⟨-, hnew⟩ := allocate_placed ht hclear h.between.inside hfuel hfit hnone
      (fun _ hx => nomatch hx) hrun
    obtain ⟨free', occupied', spare', ht', -⟩ := hafter.trees
    exact Or.inr (Lies.apart ht' hafter.between.inside (hnew r rfl).1.lies hkept hr)

/-- A collection leaves the object of a root word in place. -/
theorem collect_lies (h : Intact cfg g) (hfuel : depth cfg < fuel) (ho : Lies cfg g.heap o m)
    (hseg : seg ∈ roots.segments) (hw : w ∈ words seg.1 seg.2)
    (hroot : load64 g.heap.mem w = o)
    (hone : ∀ g₂, stopAndMark cfg fuel roots.segments g = some g₂ →
      FreesOneSided (flagsOf g₂.heap.large.nodes) g₂.heap.large.nodes g₂.heap.large.occupiedRoot)
    (hrun : callServiceThread cfg fuel roots.segments g = some g') :
    Intact cfg g' ∧ Lies cfg g'.heap o m := by
  obtain ⟨free, occupied, spare, ht, -⟩ := h.trees
  obtain ⟨g₂, hstop, hsweep⟩ := Option.bind_eq_some_iff.mp hrun
  obtain ⟨hmarked, hframe⟩ := stopAndMark_marked h.between hstop
  have hlen := ht.shape.length
  have hg : getObject cfg fuel g.heap (load64 g.heap.mem w) = some (some o) := by
    rw [hroot]
    refine ho.getObject ht ?_
    simp only [depth] at hfuel
    omega
  have hflag : isMarked cfg fuel g₂.heap o = some true := by
    obtain ⟨m₂, hmark, rfl⟩ := Option.map_eq_some_iff.mp hstop
    exact mark_root h.between.inside.occupied hmark h.between.stack hseg hw
      (stable_of_apart (roots.apart seg hseg w hw)) hg
  have ht₂ := ht.mark hframe
  have hf : cfg.treenodeCount + 1 < fuel := by
    simp only [depth] at hfuel
    omega
  obtain ⟨large, hlarge, rfl⟩ := Option.map_eq_some_iff.mp hsweep
  have hrec := ht₂.sweep (fun _ => hone g₂ hstop) hf hlarge
  exact ⟨⟨sweep_between hmarked hsweep, hrec.trees⟩, Lies.sweep hrec ht₂ (ho.mark hframe) hflag⟩

/-- A call of `gc_malloc` leaves the object of a root word in place. -/
theorem gcMalloc_lies (h : Intact cfg g) (hfuel : depth cfg < fuel) (ho : Lies cfg g.heap o m)
    (hseg : seg ∈ roots.segments) (hw : w ∈ words seg.1 seg.2)
    (hroot : load64 g.heap.mem w = o) (hcall : CallKeepsTrees cfg fuel roots.segments g n)
    (hrun : gcMalloc cfg fuel roots.segments g n = some (g', res)) :
    Intact cfg g' ∧ Lies cfg g'.heap o m ∧
      ∀ r, res = some r → r = o ∨ r + getSizeWithAlignment n ≤ o ∨ o + m ≤ r := by
  rw [gcMalloc] at hrun
  split at hrun
  · cases hrun
    exact ⟨h, ho, by simp⟩
  · obtain ⟨⟨g₁, res₁⟩, hfirst, hrun⟩ := Option.bind_eq_some_iff.mp hrun
    have h₁ := h.attempt hfuel hcall.first hfirst
    obtain ⟨ho₁, hnew₁⟩ := attempt_lies h hfuel hcall.first ho hfirst
    cases res₁ with
    | some r =>
      cases hrun
      exact ⟨h₁, ho₁, hnew₁⟩
    | none =>
      obtain ⟨g₃, hcollect, hsecond⟩ := Option.bind_eq_some_iff.mp hrun
      have hroot₁ : load64 g₁.heap.mem w = o := by
        rw [← hroot]
        apply load64_congr
        intro x hlo hhi
        apply allocate_outside h.between hfirst
        apply not_headerByte_of_apart
        have hap := roots.apart seg hseg w hw
        omega
      obtain ⟨h₃, ho₃⟩ := collect_lies h₁ hfuel ho₁ hseg hw hroot₁
        (fun g₂ hstop => hcall.sweep g₁ g₂ hfirst hstop) hcollect
      have hfit := hcall.second g₁ g₃ hfirst hcollect
      exact ⟨h₃.attempt hfuel hfit hsecond, attempt_lies h₃ hfuel hfit ho₃ hsecond⟩

end Call

/-- The memory after a call that has moved `m` bytes from `obj` to `r` and was asked for `n`. -/
def CopiesWhatFits (cfg : Config) (frame obj m n r : Nat) (mem mem' : Mem) : Prop :=
  (∀ i, i < min m n → mem' (r + i) = mem (obj + i)) ∧
    ∀ x, ¬ (r ≤ x ∧ x < r + getSizeWithAlignment n) → ¬ HeaderByte cfg x →
      ¬ (frame ≤ x ∧ x < frame + 8) → mem' x = mem x

section Copy

variable {cfg : Config} {roots : Roots cfg} {s : State} {fuel n obj m r frame memblock : Nat}
  {g g' : Gc} {seg : Nat × Nat}

theorem writable_of_apart (hw : frame + 8 ≤ cfg.smallStart ∨ cfg.smallEnd ≤ frame) :
    Writable cfg frame := by
  intro b hb
  have hend := cfg.blockAddr_end_le hb
  simp only [Config.blockAddr, blockHeaderSize, blockSize] at *
  omega

theorem Intact.store (h : Intact cfg g) (hw : Writable cfg frame) :
    Intact cfg (Gc.store g frame obj) :=
  ⟨store_between h.between hw, h.trees⟩

theorem intact_of_reachable (h : Reachable cfg roots KeepsTrees s) (hphase : s.phase = .mutator) :
    Intact cfg s.gc := by
  obtain ⟨free, occupied, spare, ht, hclear⟩ : LargeInv cfg True s :=
    reachable_largeInv h (fun _ _ hok => hok.1) fun _ _ _ hok => hok.2
  constructor
  · exact (reachable_inv h).between (by simp [hphase])
  · exact ⟨free, occupied, spare, ht, hclear (by simp [hphase])⟩

/-- The null pointer is in no heap. -/
theorem getObject_zero (h : Heap) : getObject cfg fuel h 0 = some none := by
  have hsmall : ¬ cfg.InSmall 0 := fun hs => absurd hs.1 (by have := cfg.smallStart_pos; omega)
  have hlarge : ¬ cfg.InLarge 0 := fun hl => absurd hl.1 (by have := cfg.largeStart_pos; omega)
  simp only [getObject, if_neg hsmall, if_neg hlarge]

/-- A call that returns an object is a call of `gc_malloc` and a copy. -/
theorem gcRealloc_some (hobj : getObject cfg fuel g.heap memblock = some (some obj))
    (hrun : gcRealloc cfg fuel roots.segments frame g memblock n = some (g', some r)) :
    ∃ g₁ count, gcMalloc cfg fuel roots.segments (Gc.store g frame obj) n = some (g₁, some r) ∧
      getObjectSize cfg fuel g₁.heap obj = some count ∧
      g'.heap.mem = gcMemcpy g₁.heap.mem r obj count := by
  have hnull : memblock ≠ 0 := by
    rintro rfl
    rw [getObject_zero] at hobj
    cases hobj
  simp only [gcRealloc, if_neg hnull, hobj, Option.bind_some] at hrun
  obtain ⟨⟨g₁, res⟩, hmalloc, hrun⟩ := Option.bind_eq_some_iff.mp hrun
  cases res with
  | none => cases hrun
  | some r' =>
    obtain ⟨count, hcount, he⟩ := Option.map_eq_some_iff.mp hrun
    cases he
    exact ⟨g₁, count, hmalloc, hcount, rfl⟩

/-- The bytes of an object before and after the call of `gc_malloc`. -/
theorem kept_bytes (h : Between cfg g) (hw : Writable cfg frame)
    (hrun : gcMalloc cfg fuel roots.segments (Gc.store g frame obj) n = some (g', some r)) {x : Nat}
    (hx : ¬ HeaderByte cfg x) (hf : ¬ (frame ≤ x ∧ x < frame + 8)) :
    g'.heap.mem x = g.heap.mem x := by
  have hout : g'.heap.mem x = store64 g.heap.mem frame obj x :=
    gcMalloc_outside (store_between h hw) hrun x hx
  rw [hout]
  exact store64_of_not_mem (by omega)

/-- If the new object holds the whole old one, `gc_realloc` copies it and writes nothing else. -/
theorem realloc_copies (h : Reachable cfg roots KeepsTrees s) (hphase : s.phase = .mutator)
    (hfuel : depth cfg < fuel) (hseg : seg ∈ roots.segments)
    (hframe : frame ∈ words seg.1 seg.2)
    (hobj : getObject cfg fuel s.gc.heap memblock = some (some obj))
    (hslot : ¬ BehindSlots cfg s.gc.heap memblock)
    (hsize : getObjectSize cfg fuel s.gc.heap obj = some m)
    (hcall : CallKeepsTrees cfg fuel roots.segments (Gc.store s.gc frame obj) n)
    (hrun : gcRealloc cfg fuel roots.segments frame s.gc memblock n = some (g', some r))
    (hfits : m ≤ getSizeWithAlignment n) :
    CopiesWhatFits cfg frame obj m n r s.gc.heap.mem g'.heap.mem := by
  have hintact := intact_of_reachable h hphase
  have hw : Writable cfg frame := writable_of_apart (roots.apart seg hseg frame hframe)
  have hin := hintact.between.inside
  -- the old object
  obtain ⟨free, occupied, spare, ht, -⟩ := hintact.trees
  have hdepth : occupied.size < fuel := by
    have hlen := ht.shape.length
    simp only [depth] at hfuel
    omega
  obtain ⟨m', hlies⟩ := lies_of_getObject ht hslot hobj
  obtain rfl : m' = m := Option.some.inj ((hlies.getObjectSize ht hdepth).symm.trans hsize)
  have hrange := hlies.inside hin
  have hroot : load64 (Gc.store s.gc frame obj).heap.mem frame = obj := by
    apply load64_store64_of_lt
    have hsmall := cfg.smallEnd_lt
    have hlarge := cfg.largeEnd_lt
    simp only [Config.smallEnd, Config.largeEnd] at hrange
    omega
  -- the call of `gc_malloc`
  obtain ⟨g₁, count, hmalloc, hcount, hmem⟩ := gcRealloc_some hobj hrun
  have hlies₀ : Lies cfg (Gc.store s.gc frame obj).heap obj m' :=
    hlies.store (store64_sameHeaders hw)
  obtain ⟨hintact₁, hlies₁, hap⟩ := gcMalloc_lies (hintact.store hw) hfuel hlies₀ hseg hframe hroot
    hcall hmalloc
  obtain ⟨free₁, occupied₁, spare₁, ht₁, -⟩ := hintact₁.trees
  have hdepth₁ : occupied₁.size < fuel := by
    have hlen := ht₁.shape.length
    simp only [depth] at hfuel
    omega
  obtain rfl : m' = count := Option.some.inj ((hlies₁.getObjectSize ht₁ hdepth₁).symm.trans hcount)
  have hnew := hap r rfl
  have hcopy : ∀ x, g'.heap.mem x =
      if r ≤ x ∧ x < r + m' then g₁.heap.mem (obj + (x - r)) else g₁.heap.mem x := by
    intro x
    rw [hmem]
    exact gcMemcpy_apply (by omega)
  constructor
  · intro i hi
    have hroots := roots.apart seg hseg frame hframe
    have hroots' := roots.apartLarge seg hseg frame hframe
    rw [hcopy, if_pos (by omega), Nat.add_sub_cancel_left]
    apply kept_bytes hintact.between hw hmalloc
    · exact hlies.not_headerByte hin (by omega) (by omega)
    · omega
  · intro x hx hhead hstack
    rw [hcopy, if_neg (by omega)]
    exact kept_bytes hintact.between hw hmalloc hhead hstack

end Copy

/-- An object of 2016 bytes is reallocated to 8 bytes: the second word of the old object lands
behind the new one. -/
theorem shrinking_writes_behind :
    ¬ ∀ (cfg : Config) (roots : Roots cfg) (s : State)
      (fuel frame memblock obj m n r : Nat) (seg : Nat × Nat) (g' : Gc),
      Reachable cfg roots Transition.anyStep s → s.phase = .mutator → depth cfg < fuel →
      seg ∈ roots.segments → frame ∈ words seg.1 seg.2 →
      getObject cfg fuel s.gc.heap memblock = some (some obj) →
      ¬ BehindSlots cfg s.gc.heap memblock →
      getObjectSize cfg fuel s.gc.heap obj = some m →
      gcRealloc cfg fuel roots.segments frame s.gc memblock n = some (g', some r) →
      CopiesWhatFits cfg frame obj m n r s.gc.heap.mem g'.heap.mem := by
  intro h
  obtain ⟨s, hr, hphase, hobj, hsize, hrealloc⟩ := (Transition.Reachable.init start_start :
      Reachable oneBlock oneRoot Transition.anyStep start).exists_of_run
    [.malloc 2016 8196, .store 8200 7]
    (fun s => s.phase = .mutator ∧ getObject oneBlock 8196 s.gc.heap 8192 = some (some 8192) ∧
      getObjectSize oneBlock 8196 s.gc.heap 8192 = some 2016 ∧
      (gcRealloc oneBlock 8196 oneRoot.segments 104 s.gc 8192 8).any (fun p =>
        decide (p.2 = some 4176 ∧ p.1.heap.mem 4184 ≠ s.gc.heap.mem 4184)) = true)
    (by decide +kernel)
  have hslot : ¬ BehindSlots oneBlock s.gc.heap 8192 := by
    rintro ⟨b, hb, -, -, hhi⟩
    have hend := oneBlock.blockAddr_end_le hb
    have hstop : oneBlock.smallEnd = 8192 := rfl
    omega
  cases hp : gcRealloc oneBlock 8196 oneRoot.segments 104 s.gc 8192 8 with
  | none => simp [hp] at hrealloc
  | some p =>
    obtain ⟨g', res⟩ := p
    rw [hp] at hrealloc
    obtain ⟨hres, hbyte⟩ := of_decide_eq_true hrealloc
    obtain rfl : res = some 4176 := hres
    have hcopies := h oneBlock oneRoot s 8196 104 8192 8192 2016 8 4176 (104, 112) g' hr hphase
      (by decide) (List.mem_singleton_self _) (by decide) hobj hslot hsize hp
    have hhead : ¬ HeaderByte oneBlock 4184 := by
      rintro ⟨b, hb, hlo, hhi⟩
      have hblock : ∀ b, b < oneBlock.blocksCount →
          ¬ 4184 < oneBlock.blockAddr b + blockHeaderSize := by
        decide
      exact hblock b hb hhi
    exact hbyte (hcopies.2 4184 (by decide) hhead (by decide))

/-- An object of 8 bytes, found by an address inside it, is reallocated to 2016 bytes. -/
theorem realloc_copies_larger :
    ∃ (s : State) (g' : Gc),
      gcRealloc oneBlock 8196 oneRoot.segments 104 s.gc 4178 2016 = some (g', some 8192) ∧
        CopiesWhatFits oneBlock 104 4176 8 2016 8192 s.gc.heap.mem g'.heap.mem := by
  obtain ⟨s, hr, hphase, hobj, hsize, hhead, hfit, hsome, hrealloc⟩ :=
    (Transition.Reachable.init start_start :
      Reachable oneBlock oneRoot (Checked oneBlock) start).exists_of_run
    [.malloc 8 8196, .store 4176 7]
    (fun s => s.phase = .mutator ∧ getObject oneBlock 8196 s.gc.heap 4178 = some (some 4176) ∧
      getObjectSize oneBlock 8196 s.gc.heap 4176 = some 8 ∧
      headerSize oneBlock s.gc.heap.mem 0 = 8 ∧
      FitsChildless s.gc.heap.large (getSizeWithAlignment 2016) ∧
      ¬ Fails oneBlock 8196 (Gc.store s.gc 104 4176) 2016 ∧
      (gcRealloc oneBlock 8196 oneRoot.segments 104 s.gc 4178 2016).any (fun p =>
        decide (p.2 = some 8192)) = true)
    (by decide +kernel)
  have hr' : Reachable oneBlock oneRoot KeepsTrees s := by
    apply hr.mono
    intro s a hok
    have hfault : SafeRuns.Faultless oneBlock oneRoot s a := faultless_of_checked hok
    exact ⟨hfault.clears.1, hfault.oneSided⟩
  have hslot : ¬ BehindSlots oneBlock s.gc.heap 4178 := by
    rintro ⟨b, hb, -, hlo, -⟩
    obtain rfl : b = 0 := Nat.lt_one_iff.mp hb
    rw [hhead] at hlo
    exact absurd hlo (by decide)
  have hcall : CallKeepsTrees oneBlock 8196 oneRoot.segments (Gc.store s.gc 104 4176) 2016 := by
    constructor
    · exact fun _ => hfit
    · exact fun g₁ _ hnone _ => absurd (fails_of_none hnone) hsome
    · exact fun g₁ _ hnone _ _ => absurd (fails_of_none hnone) hsome
  cases hp : gcRealloc oneBlock 8196 oneRoot.segments 104 s.gc 4178 2016 with
  | none => simp [hp] at hrealloc
  | some p =>
    obtain ⟨g', res⟩ := p
    rw [hp] at hrealloc
    obtain rfl : res = some 8192 := of_decide_eq_true hrealloc
    exact ⟨s, g', hp, realloc_copies hr' hphase (by decide) (List.mem_singleton_self (104, 112))
      (by decide) hobj hslot hsize hcall hp (by decide)⟩

end Realloc

end GarbageCollector
