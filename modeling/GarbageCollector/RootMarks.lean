import GarbageCollector.ExactMarking
import GarbageCollector.MarkFrame

/-!
# What a root word keeps

Whatever else the heap holds, `mark` leaves the object marked that a root word points to.
-/

namespace GarbageCollector

open Bytes
open ExactMarking

section Roots

variable {cfg : Config} {fuel : Nat} {m m' : Marker} {o w : Nat} {addrs : List Nat}
  {seg : Nat × Nat} {segments : List (Nat × Nat)}

/-- A word that overlaps no byte of the small heap. -/
theorem stable_of_apart (hw : w + 8 ≤ cfg.smallStart ∨ cfg.smallEnd ≤ w) : Stable cfg w := by
  rintro x hwx hxw b hb ⟨hlo, hhi⟩
  have hend := cfg.blockAddr_end_le hb
  simp only [Config.blockAddr, getBitmapAddr, bitmapBytesCount, blockSize] at *
  omega

theorem markAndPush_marks (ho : IsStart cfg m.heap o)
    (hm : markAndPush cfg fuel m o = some m') : isMarked cfg fuel m'.heap o = some true := by
  obtain ⟨marked, hmarked, hm⟩ := Option.bind_eq_some_iff.mp hm
  split at hm
  · rename_i htrue
    cases hm
    exact htrue ▸ hmarked
  · obtain ⟨heap, hmark, rfl⟩ := Option.map_eq_some_iff.mp hm
    obtain ⟨heap', hmark', -, hself, -⟩ := markObject_spec ho hmarked
    cases hmark.symm.trans hmark'
    exact hself

theorem visitWords_marks (hin : OccupiedInside cfg m.heap)
    (hm : visitWords cfg fuel m addrs = some m') (hw : w ∈ addrs) (hstable : Stable cfg w)
    (hg : getObject cfg fuel m.heap (load64 m.heap.mem w) = some (some o)) :
    isMarked cfg fuel m'.heap o = some true := by
  induction addrs generalizing m with
  | nil => cases hw
  | cons v addrs ih =>
    rw [visitWords, List.foldlM_cons] at hm
    obtain ⟨m₁, hvisit, hrest⟩ := Option.bind_eq_some_iff.mp hm
    have hhead : visitWords cfg fuel m [v] = some m₁ := by
      rw [visitWords, List.foldlM_cons, hvisit]
      rfl
    have hframe := visitWords_frame hin hhead
    have hin₁ := hin.congr hframe.same
    rcases List.mem_cons.mp hw with rfl | hw
    · rw [visitWord, hg] at hvisit
      have hmarked := markAndPush_marks (getObject_start hin hg) hvisit
      exact (visitWords_frame hin₁ hrest).marked hmarked
    · apply ih hin₁ hrest hw
      rw [load_stable hframe.same hstable, hframe.same.getObject]
      exact hg

theorem segmentTraverse_marks (hin : OccupiedInside cfg m.heap)
    (hm : segmentTraverse cfg fuel m seg = some m') (hw : w ∈ words seg.1 seg.2)
    (hstable : Stable cfg w)
    (hg : getObject cfg fuel m.heap (load64 m.heap.mem w) = some (some o)) :
    isMarked cfg fuel m'.heap o = some true := by
  rw [segmentTraverse] at hm
  split at hm
  · obtain ⟨m₁, hvisit, hrest⟩ := Option.bind_eq_some_iff.mp hm
    have hframe := visitWords_frame hin hvisit
    have hmarked := visitWords_marks hin hvisit hw hstable hg
    exact (closure_frame (hin.congr hframe.same) hrest).1.marked hmarked
  · cases hm

/-- The object of a root word is marked when `mark` returns. -/
theorem mark_root (hin : OccupiedInside cfg m.heap) (hm : mark cfg fuel m segments = some m')
    (hempty : m.stack.data = []) (hseg : seg ∈ segments) (hw : w ∈ words seg.1 seg.2)
    (hstable : Stable cfg w)
    (hg : getObject cfg fuel m.heap (load64 m.heap.mem w) = some (some o)) :
    isMarked cfg fuel m'.heap o = some true := by
  induction segments generalizing m with
  | nil => cases hseg
  | cons first segments ih =>
    rw [mark, List.foldlM_cons] at hm
    obtain ⟨m₁, hfirst, hrest⟩ := Option.bind_eq_some_iff.mp hm
    obtain ⟨hframe, hempty₁⟩ := segmentTraverse_frame hin hfirst
    have hin₁ := hin.congr hframe.same
    rcases List.mem_cons.mp hseg with rfl | hseg
    · have hmarked := segmentTraverse_marks hin hfirst hw hstable hg
      exact (mark_frame hin₁ hrest hempty₁).1.marked hmarked
    · apply ih hin₁ hrest hempty₁ hseg
      rw [load_stable hframe.same hstable, hframe.same.getObject]
      exact hg

end Roots

section Segments

variable {cfg : Config} {start stop w : Nat}

/-- `a` is an aligned word of the segment. -/
def AlignedWord (start stop a : Nat) : Prop :=
  a % 8 = 0 ∧ start ≤ a ∧ a + 8 ≤ stop

/-- `segment_traverse` examines all aligned words of the segment, marks what they resolve to, and
reads nothing beside the segment on the way. -/
structure CoversRoots (cfg : Config) (start stop : Nat) : Prop where
  examined : ∀ a, AlignedWord start stop a → a ∈ words start stop
  marked : ∀ fuel m m' a o, OccupiedInside cfg m.heap →
    segmentTraverse cfg fuel m (start, stop) = some m' → AlignedWord start stop a →
    Stable cfg a → getObject cfg fuel m.heap (load64 m.heap.mem a) = some (some o) →
    isMarked cfg fuel m'.heap o = some true
  returns : ∀ fuel h occupied stack, Clean cfg fuel h occupied [(start, stop)] →
    occupied.size < fuel → 2 * cfg.heapSize < fuel → stack.data = [] →
    ∃ m', segmentTraverse cfg fuel ⟨h, stack⟩ (start, stop) = some m'
  within : ∀ w, w ∈ words start stop → ∀ x, w ≤ x → x < w + 8 → start ≤ x ∧ x < stop

/-- The last word read ends with the segment if the length is a multiple of eight. -/
theorem words_within (hdvd : 8 ∣ stop - start) (hw : w ∈ words start stop) :
    start ≤ w ∧ w + 8 ≤ stop := by
  obtain ⟨hlo, hlt, hmod⟩ := mem_words.mp hw
  omega

theorem words_last (hlt : start < stop) :
    ∃ w, w ∈ words start stop ∧ stop ≤ w + 8 ∧ (w + 8 - start) % 8 = 0 := by
  refine ⟨start + 8 * ((stop - start - 1) / 8), mem_words.mpr ?_, ?_, ?_⟩ <;> omega

theorem clean_segmentTraverse {fuel : Nat} {h : Heap} {occupied : BlockTree} {stack : Stack}
    (hc : Clean cfg fuel h occupied [(start, stop)]) (hf : occupied.size < fuel)
    (hsteps : 2 * cfg.heapSize < fuel) (hstack : stack.data = []) :
    ∃ m', segmentTraverse cfg fuel ⟨h, stack⟩ (start, stop) = some m' := by
  obtain ⟨m', -, hrun, -⟩ := segmentTraverse_spec hc hf (hc.agrees hstack) (sweeps_nothing _ _)
    (((Worklist.Colours.work_le _ rfl).trans (card_heapAddresses_le cfg)).trans_lt hsteps)
    List.mem_cons_self
  exact ⟨m', hrun⟩

/-- The stride starts at `start` and the bound is `stop`: all is well if both are aligned, or if
the segment is one word. -/
theorem covers_roots_iff (hlt : start < stop) :
    CoversRoots cfg start stop ↔ 8 ∣ stop - start ∧ (8 ∣ start ∨ stop - start = 8) := by
  constructor
  · intro h
    have hdvd : 8 ∣ stop - start := by
      obtain ⟨w, hw, hend, hmod⟩ := words_last hlt
      have hlast := (h.within w hw (w + 7) (by omega) (by omega)).2
      omega
    refine ⟨hdvd, ?_⟩
    by_contra hno
    -- the first aligned address behind an unaligned `start` is not on the stride
    have hmiss := h.examined (8 * (start / 8 + 1)) ⟨by omega, by omega, by omega⟩
    obtain ⟨-, -, hmod⟩ := mem_words.mp hmiss
    omega
  · rintro ⟨hdvd, halign⟩
    have hexamined : ∀ a, AlignedWord start stop a → a ∈ words start stop := by
      rintro a ⟨hmod, hlo, hhi⟩
      exact mem_words.mpr ⟨hlo, by omega, by omega⟩
    constructor
    · exact hexamined
    · intro fuel m m' a o hin hrun ha hstable hg
      exact segmentTraverse_marks hin hrun (hexamined a ha) hstable hg
    · intro fuel h occupied stack hc hf hsteps hstack
      exact clean_segmentTraverse hc hf hsteps hstack
    · intro w hw x hlo hhi
      have hin := words_within hdvd hw
      omega

theorem covers_roots_iff_two_words : CoversRoots oneBlock 104 120 :=
  (covers_roots_iff (by decide)).mpr (by decide)

/-- One block of size 16, and a root word at address 104. -/
def oneRootWord : Heap where
  small := {
    mem := fun x =>
      if x = 4104 then 16#8 else if x = 104 then 0x50#8 else if x = 105 then 0x10#8 else 0#8
    segregList := fun _ => none
    nextNode := fun _ => none
    emptyListHead := none }
  large := ⟨fun _ => ⟨⟨0, 0, false⟩, none, none⟩, none, none, none⟩

/-- From 100 on the words at 100 and 108 are examined, and the aligned one at 104 is not. -/
theorem aligned_root_missed :
    ¬ CoversRoots oneBlock 100 116 ∧ AlignedWord 100 116 104 ∧
      getObject oneBlock 2 oneRootWord (load64 oneRootWord.mem 104) = some (some 4176) ∧
      (segmentTraverse oneBlock 2 ⟨oneRootWord, createStack⟩ (100, 116)).bind
        (fun m' => isMarked oneBlock 2 m'.heap 4176) = some false := by
  refine ⟨fun h => ?_, by simp [AlignedWord], by decide +kernel, by decide +kernel⟩
  have hmiss := h.examined 104 (by simp [AlignedWord])
  revert hmiss
  decide

end Segments

end GarbageCollector
