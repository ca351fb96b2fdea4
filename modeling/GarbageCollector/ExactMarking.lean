import GarbageCollector.ResolvedRange
import Mathlib.Order.Interval.Finset.Nat

/-!
# Marking is exact

The marker works on the graph of the objects with the words inside them as edges. Its heaps and
its stack stand for the colours of a worklist: an object is marked when its bit or its flag is
set, and it is grey while it is on the stack.
-/

namespace GarbageCollector.ExactMarking

open GarbageCollector BinaryTree ResolvedRange Worklist

section Graph

variable (cfg : Config) (fuel : Nat) (h : Heap)

/-- A word between two addresses resolves to the object `o`. -/
def PointsTo (start stop o : Nat) : Prop :=
  ∃ w, w ∈ words start stop ∧ getObject cfg fuel h (Bytes.load64 h.mem w) = some (some o)

def Rooted (segments : List (Nat × Nat)) (o : Nat) : Prop :=
  ∃ segment, segment ∈ segments ∧ PointsTo cfg fuel h segment.1 segment.2 o

def Refers (o o' : Nat) : Prop :=
  ∃ size, getObjectSize cfg fuel h o = some size ∧ PointsTo cfg fuel h o (o + size) o'

/-- The least set of objects that holds what the roots resolve to and what the words inside its
objects resolve to. -/
def Live (segments : List (Nat × Nat)) : Nat → Prop :=
  Reaches (Rooted cfg fuel h segments) (Refers cfg fuel h)

end Graph

/-- No byte of the word at `w` is in a bitmap. -/
def Stable (cfg : Config) (w : Nat) : Prop :=
  ∀ x, w ≤ x → x < w + 8 → ∀ b, b < cfg.blocksCount → ¬ InBitmap cfg b x

/-- No mark is left, and no root nor word of a live object points behind the last whole slot of a
small block. -/
structure Clean (cfg : Config) (fuel : Nat) (h : Heap) (occupied : BlockTree)
    (segments : List (Nat × Nat)) : Prop where
  tree : OccupiedTree cfg h occupied
  disjoint : occupied.inorder.Pairwise fun v w => v.2.stop ≤ w.2.addr
  bits : ∀ b, b < cfg.blocksCount → ∀ j, j < 8 * bitmapBytesCount → markBit cfg h.mem b j = false
  flags : ∀ v, v ∈ occupied.inorder → v.2.isMarked = false
  bounds : ∀ s, s ∈ segments → s.1 ≠ 0 ∧ s.1 < s.2
  stable : ∀ s, s ∈ segments → ∀ w, w ∈ words s.1 s.2 → Stable cfg w
  roots : ∀ s, s ∈ segments → ∀ w, w ∈ words s.1 s.2 →
    ¬ BehindSlots cfg h (Bytes.load64 h.mem w)
  inner : ∀ o size, Live cfg fuel h segments o → getObjectSize cfg fuel h o = some size →
    ∀ w, w ∈ words o (o + size) → ¬ BehindSlots cfg h (Bytes.load64 h.mem w)

section Resolved

variable {cfg : Config} {fuel : Nat} {h h' : Heap} {occupied : BlockTree}
  {segments : List (Nat × Nat)} {a o w start stop : Nat}

/-- With enough fuel `get_object` ends. -/
theorem getObject_total (ht : OccupiedTree cfg h occupied) (hf : occupied.size < fuel) (a : Nat) :
    ∃ found, getObject cfg fuel h a = some found := by
  by_cases hl : cfg.InLarge a
  · obtain ⟨found, hfound⟩ := extSearchBst_total ht.tree hf a
    simp only [getObject, if_pos hl, hfound]
    exact ⟨_, rfl⟩
  · by_cases hs : cfg.InSmall a
    · obtain ⟨b, hb, hlo, hhi⟩ := exists_block hs.1 hs.2
      simp only [getObject, if_neg hl, if_pos hs, getObjectSize_small hb hlo hhi]
      split
      · exact ⟨_, rfl⟩
      · exact ⟨_, rfl⟩
    · simp only [getObject, if_neg hl, if_neg hs]
      exact ⟨_, rfl⟩

/-- What `scan` needs to know of an object. -/
structure Resolved (cfg : Config) (fuel : Nat) (h : Heap) (o size : Nat) : Prop where
  start : IsStart cfg h o
  self : getObject cfg fuel h o = some (some o)
  hasSize : getObjectSize cfg fuel h o = some size
  marked : ∃ m, isMarked cfg fuel h o = some m
  stable : ∀ w, w ∈ words o (o + size) → Stable cfg w

/-- The words behind the start of the large heap and before its end. -/
theorem stable_large (hlo : cfg.largeStart ≤ w) (hhi : w < cfg.largeEnd) : Stable cfg w := by
  rintro x hwx hxw b hb ⟨hlow, hhigh⟩
  have hd := cfg.heaps_disjoint
  have hend := cfg.blockAddr_end_le hb
  simp only [Config.largeEnd, Config.smallEnd, Config.blockAddr, getBitmapAddr, bitmapBytesCount,
    blockSize] at *
  omega

theorem resolved_large (ht : OccupiedTree cfg h occupied) (hf : occupied.size < fuel)
    (hd : occupied.inorder.Pairwise fun v w => v.2.stop ≤ w.2.addr)
    (ha : cfg.InLarge a) (hg : getObject cfg fuel h a = some (some o)) :
    ∃ size, Resolved cfg fuel h o size := by
  simp only [getObject, if_pos ha, Option.map_eq_some_iff] at hg
  obtain ⟨found, hfound, ho⟩ := hg
  cases found with
  | none => cases ho
  | some i =>
    cases ho
    obtain ⟨hbelow, hlo, hhi⟩ := extSearchBst_below hfound
    obtain ⟨v, hv, hvi, hblock⟩ := ht.exists_block hbelow
    obtain ⟨hstart, hend⟩ := ht.inside v hv
    rw [hblock] at hlo hhi
    simp only [hblock]
    have hin : cfg.InLarge v.2.addr := ⟨hstart, by omega⟩
    have hsearch := ht.searchBst hf hv
    have hout : ¬ cfg.InSmall v.2.addr := fun hs => cfg.not_inLarge_of_inSmall hs hin
    rw [hvi] at hsearch
    refine ⟨v.2.size, Or.inl hin, ?_, ?_, ⟨_, isMarked_large hin hsearch⟩, fun w hw => ?_⟩
    · have hself := extSearchBst_of_mem ht.tree hf hd hv le_rfl (by omega)
      rw [hvi] at hself
      simp only [getObject, if_pos hin, hself, Option.map_some, hblock]
    · simp only [getObjectSize, if_neg hout, if_pos hin, hsearch, Option.bind_some, hblock]
    · obtain ⟨hlow, hhigh, -⟩ := mem_words.mp hw
      simp only [Header.stop] at hend hhi
      exact stable_large (hstart.trans hlow) (by omega)

theorem resolved_small (hnot : ¬ BehindSlots cfg h a) (ha : cfg.InSmall a)
    (hg : getObject cfg fuel h a = some (some o)) : ∃ size, Resolved cfg fuel h o size := by
  obtain ⟨b, k, hslot, hoa, -, hab⟩ := getObject_slot ha hg
  have hk := slot_lt_of_not_behind hnot hslot hoa hab
  have hend := (cfg.lt_slotCount_iff (i := b) hslot.size.1).mp hk
  rw [cfg.slotAddr_succ, ← hslot.addr] at hend
  refine ⟨_, Or.inr ⟨b, k, hslot⟩, hslot.getObject, getObjectSize_slot hslot,
    ⟨_, hslot.isMarked⟩, fun w hw x hwx hxw b' hb' => ?_⟩
  have hlow := hslot.low
  obtain ⟨hlo, -, hup⟩ := words_inside hlow hend w hw
  have hword := hup (getSizeWithAlignment_mod _)
  exact not_inBitmap_of_ge (i := b) (by omega) (by omega)

theorem resolved_of_getObject (ht : OccupiedTree cfg h occupied) (hf : occupied.size < fuel)
    (hd : occupied.inorder.Pairwise fun v w => v.2.stop ≤ w.2.addr)
    (hnot : ¬ BehindSlots cfg h a) (hg : getObject cfg fuel h a = some (some o)) :
    ∃ size, Resolved cfg fuel h o size := by
  by_cases hl : cfg.InLarge a
  · exact resolved_large ht hf hd hl hg
  · by_cases hs : cfg.InSmall a
    · exact resolved_small hnot hs hg
    · simp only [getObject, if_neg hl, if_neg hs] at hg
      cases hg

/-- Every live object can be scanned. -/
theorem Clean.resolved (hc : Clean cfg fuel h occupied segments) (hf : occupied.size < fuel)
    (ho : Live cfg fuel h segments o) : ∃ size, Resolved cfg fuel h o size := by
  cases ho with
  | source hs =>
    obtain ⟨s, hs, w, hw, hg⟩ := hs
    exact resolved_of_getObject hc.tree hf hc.disjoint (hc.roots s hs w hw) hg
  | @step o' _ hr hs =>
    obtain ⟨size, hsize, w, hw, hg⟩ := hs
    exact resolved_of_getObject hc.tree hf hc.disjoint (hc.inner o' size hr hsize w hw) hg

/-- A word that is in no bitmap keeps its value. -/
theorem load_stable (same : SameButMarks cfg h h') (hw : Stable cfg w) :
    Bytes.load64 h'.mem w = Bytes.load64 h.mem w :=
  Bytes.load64_congr fun x hlo hhi => same.mem x (hw x hlo hhi)

theorem isMarked_some (same : SameButMarks cfg h h') {m : Bool}
    (hm : isMarked cfg fuel h o = some m) : ∃ m', isMarked cfg fuel h' o = some m' := by
  by_cases hl : cfg.InLarge o
  · simp only [isMarked, if_pos hl, same.occupiedRoot, same.nodes.searchBst] at hm ⊢
    obtain ⟨found, hfound, hflag⟩ := Option.bind_eq_some_iff.mp hm
    cases found with
    | none => cases hflag
    | some i =>
      rw [hfound]
      exact ⟨_, rfl⟩
  · by_cases hs : cfg.InSmall o
    · simp only [isMarked, if_neg hl, if_pos hs]
      exact ⟨_, rfl⟩
    · simp only [isMarked, if_neg hl, if_neg hs] at hm
      cases hm

end Resolved

/-- The colours that the marker has given so far. -/
structure Agrees (cfg : Config) (fuel : Nat) (h : Heap) (m : Marker) (c : Colours Nat) :
    Prop where
  same : SameButMarks cfg h m.heap
  grey : m.stack.data = c.grey
  marked : ∀ o, o ∈ c.marked ↔ IsStart cfg h o ∧ isMarked cfg fuel m.heap o = some true

section Simulation

variable {cfg : Config} {fuel : Nat} {h : Heap} {m : Marker} {c : Colours Nat} {o w size : Nat}

open Classical in
/-- The objects that the words resolve to, in their order. -/
noncomputable def targets (cfg : Config) (fuel : Nat) (h : Heap) (addrs : List Nat) : List Nat :=
  addrs.filterMap fun w => (getObject cfg fuel h (Bytes.load64 h.mem w)).join

theorem mem_targets {addrs : List Nat} :
    o ∈ targets cfg fuel h addrs ↔
      ∃ w, w ∈ addrs ∧ getObject cfg fuel h (Bytes.load64 h.mem w) = some (some o) := by
  simp only [targets, List.mem_filterMap, Option.join_eq_some_iff]

theorem markAndPush_visit (ha : Agrees cfg fuel h m c) (ho : Resolved cfg fuel h o size) :
    ∃ m', markAndPush cfg fuel m o = some m' ∧ Agrees cfg fuel h m' (c.visit o) := by
  obtain ⟨b, hb⟩ := ho.marked
  obtain ⟨b', hb'⟩ := isMarked_some ha.same hb
  cases b' with
  | true =>
    refine ⟨m, ?_, ?_⟩
    · simp only [markAndPush, hb', Option.bind_some, if_pos]
    · rw [Colours.visit_of_mem ((ha.marked o).mpr ⟨ho.start, hb'⟩)]
      exact ha
  | false =>
    obtain ⟨heap, hmark, hsame, hself, hothers⟩ := markObject_spec (ho.start.congr ha.same) hb'
    have hout : o ∉ c.marked := by
      intro hin
      rw [((ha.marked o).mp hin).2] at hb'
      cases hb'
    refine ⟨⟨heap, m.stack.push o⟩, ?_, ?_⟩
    · simp [markAndPush, hb', hmark]
    · rw [Colours.visit_of_not_mem hout]
      refine ⟨ha.same.trans hsame, ?_, fun q => ?_⟩
      · rw [Stack.data_push, ha.grey]
      · rw [Set.mem_insert_iff, ha.marked]
        by_cases hq : q = o
        · rw [hq]
          exact iff_of_true (Or.inl rfl) ⟨ho.start, hself⟩
        · rw [or_iff_right hq]
          refine and_congr_right fun hstart => ?_
          rw [hothers q (hstart.congr ha.same) hq]

theorem visitWords_visits (addrs : List Nat) (ha : Agrees cfg fuel h m c)
    (htotal : ∀ a, ∃ found, getObject cfg fuel h a = some found)
    (hstable : ∀ w, w ∈ addrs → Stable cfg w)
    (hres : ∀ o, o ∈ targets cfg fuel h addrs → ∃ size, Resolved cfg fuel h o size) :
    ∃ m', visitWords cfg fuel m addrs = some m' ∧
      Agrees cfg fuel h m' (c.visits (targets cfg fuel h addrs)) := by
  induction addrs generalizing m c with
  | nil => exact ⟨m, rfl, ha⟩
  | cons w addrs ih =>
    have hload := load_stable ha.same (hstable w List.mem_cons_self)
    have hstable' : ∀ w', w' ∈ addrs → Stable cfg w' :=
      fun w' hw' => hstable w' (List.mem_cons_of_mem _ hw')
    obtain ⟨found, hfound⟩ := htotal (Bytes.load64 h.mem w)
    cases found with
    | none =>
      have htargets : targets cfg fuel h (w :: addrs) = targets cfg fuel h addrs := by
        simp [targets, hfound]
      rw [htargets] at hres ⊢
      obtain ⟨m', hm', ha'⟩ := ih ha hstable' hres
      refine ⟨m', ?_, ha'⟩
      rw [visitWords, List.foldlM_cons, visitWord, hload, ha.same.getObject, hfound]
      exact hm'
    | some o =>
      have htargets : targets cfg fuel h (w :: addrs) = o :: targets cfg fuel h addrs := by
        simp [targets, hfound]
      rw [htargets] at hres ⊢
      obtain ⟨size, ho⟩ := hres o List.mem_cons_self
      obtain ⟨m₁, hm₁, ha₁⟩ := markAndPush_visit ha ho
      obtain ⟨m', hm', ha'⟩ := ih ha₁ hstable' fun q hq => hres q (List.mem_cons_of_mem _ hq)
      refine ⟨m', ?_, ha'⟩
      rw [visitWords, List.foldlM_cons, visitWord, hload, ha.same.getObject, hfound]
      simp only [Option.bind_some, hm₁, Option.bind_eq_bind]
      exact hm'

theorem scan_visits (ha : Agrees cfg fuel h m c) (ho : Resolved cfg fuel h o size)
    (htotal : ∀ a, ∃ found, getObject cfg fuel h a = some found)
    (hres : ∀ q, PointsTo cfg fuel h o (o + size) q → ∃ size, Resolved cfg fuel h q size) :
    ∃ m', scan cfg fuel m o = some m' ∧
      Agrees cfg fuel h m' (c.visits (targets cfg fuel h (words o (o + size)))) := by
  obtain ⟨m', hm', ha'⟩ := visitWords_visits (words o (o + size)) ha htotal ho.stable
    fun q hq => hres q (mem_targets.mp hq)
  refine ⟨m', ?_, ha'⟩
  simp only [scan, ha.same.getObject, ho.self, Option.bind_some, ha.same.getObjectSize,
    ho.hasSize, hm']

end Simulation

/-- What holds of the colours between two scans. -/
structure Sweeps (source : Nat → Prop) (succ : Nat → Nat → Prop) (c : Colours Nat) : Prop where
  covers : c.Covers succ fun _ => False
  grey : c.GreyMarked
  sound : ∀ o, o ∈ c.marked → Reaches source succ o

section Traversal

variable {cfg : Config} {fuel : Nat} {h : Heap} {occupied : BlockTree}
  {segments : List (Nat × Nat)} {m : Marker} {c : Colours Nat} {o : Nat}

/-- Every address of the two heaps. -/
def heapAddresses (cfg : Config) : Finset Nat :=
  Finset.Ico cfg.smallStart cfg.smallEnd ∪ Finset.Ico cfg.largeStart cfg.largeEnd

theorem card_heapAddresses_le (cfg : Config) : (heapAddresses cfg).card ≤ 2 * cfg.heapSize := by
  refine (Finset.card_union_le _ _).trans ?_
  rw [Nat.card_Ico, Nat.card_Ico, Config.smallEnd, Config.largeEnd]
  omega

theorem mem_heapAddresses (ho : IsStart cfg h o) : o ∈ heapAddresses cfg := by
  rw [heapAddresses, Finset.mem_union, Finset.mem_Ico, Finset.mem_Ico]
  rcases ho with hl | ⟨b, k, hs⟩
  · exact Or.inr hl
  · exact Or.inl hs.inSmall

theorem Clean.live_addresses (hc : Clean cfg fuel h occupied segments)
    (hf : occupied.size < fuel) (ho : Live cfg fuel h segments o) : o ∈ heapAddresses cfg := by
  obtain ⟨size, hr⟩ := hc.resolved hf ho
  exact mem_heapAddresses hr.start

/-- The stack is emptied, and each object popped costs one unit of work. -/
theorem closure_spec (hc : Clean cfg fuel h occupied segments) (hf : occupied.size < fuel)
    (steps : Nat) (ha : Agrees cfg fuel h m c)
    (hs : Sweeps (Rooted cfg fuel h segments) (Refers cfg fuel h) c)
    (hwork : c.work (heapAddresses cfg) < steps) :
    ∃ m' c', closure cfg fuel steps m = some m' ∧ Agrees cfg fuel h m' c' ∧
      Sweeps (Rooted cfg fuel h segments) (Refers cfg fuel h) c' ∧ c'.grey = [] ∧
      c.marked ⊆ c'.marked ∧
      c'.work (heapAddresses cfg) ≤ c.work (heapAddresses cfg) := by
  induction steps generalizing m c with
  | zero => exact absurd hwork (Nat.not_lt_zero _)
  | succ steps ih =>
    cases hgrey : c.grey with
    | nil =>
      refine ⟨m, c, ?_, ha, hs, hgrey, subset_rfl, le_rfl⟩
      simp only [closure, Stack.pop, ha.grey.trans hgrey]
    | cons o rest =>
      have hlive : Live cfg fuel h segments o :=
        hs.sound o (hs.grey o (by rw [hgrey]; exact List.mem_cons_self))
      obtain ⟨size, hres⟩ := hc.resolved hf hlive
      have hpop : Agrees cfg fuel h ⟨m.heap, { m.stack with data := rest }⟩ ⟨c.marked, rest⟩ :=
        ⟨ha.same, rfl, ha.marked⟩
      have hsucc : ∀ q, PointsTo cfg fuel h o (o + size) q → Live cfg fuel h segments q :=
        fun q hq => .step hlive ⟨size, hres.hasSize, hq⟩
      obtain ⟨m₁, hm₁, ha₁⟩ := scan_visits hpop hres (getObject_total hc.tree hf)
        fun q hq => hc.resolved hf (hsucc q hq)
      have hin : ∀ q, q ∈ targets cfg fuel h (words o (o + size)) →
          Live cfg fuel h segments q := fun q hq => hsucc q (mem_targets.mp hq)
      have hwork₁ := Colours.work_visits (c := ⟨c.marked, rest⟩) (heapAddresses cfg)
        fun q hq => hc.live_addresses hf (hin q hq)
      have hpopped := Colours.work_pop (heapAddresses cfg) hgrey
      have hs₁ : Sweeps (Rooted cfg fuel h segments) (Refers cfg fuel h)
          (Colours.visits ⟨c.marked, rest⟩ (targets cfg fuel h (words o (o + size)))) := by
        constructor
        · apply (hs.covers.pop hgrey).visits.done
          rintro q ⟨size', hsize', hq⟩
          rw [hres.hasSize, Option.some_inj] at hsize'
          subst hsize'
          exact Colours.mem_marked_visits.mpr (Or.inl (mem_targets.mpr hq))
        · apply Colours.GreyMarked.visits
          intro q hq
          exact hs.grey q (by rw [hgrey]; exact List.mem_cons_of_mem _ hq)
        · exact Colours.visits_subset hs.sound hin
      obtain ⟨m', c', hm', ha', hs', hgrey', hsub, hle⟩ := ih ha₁ hs₁ (by omega)
      refine ⟨m', c', ?_, ha', hs', hgrey', fun q hq => ?_, by omega⟩
      · simp only [closure, Stack.pop, ha.grey.trans hgrey, hm₁, Option.bind_some, hm']
      · exact hsub (Colours.mem_marked_visits.mpr (Or.inr hq))

theorem segmentTraverse_spec (hc : Clean cfg fuel h occupied segments)
    (hf : occupied.size < fuel) (ha : Agrees cfg fuel h m c)
    (hs : Sweeps (Rooted cfg fuel h segments) (Refers cfg fuel h) c)
    (hwork : c.work (heapAddresses cfg) < fuel) {s : Nat × Nat} (hseg : s ∈ segments) :
    ∃ m' c', segmentTraverse cfg fuel m s = some m' ∧ Agrees cfg fuel h m' c' ∧
      Sweeps (Rooted cfg fuel h segments) (Refers cfg fuel h) c' ∧ c'.grey = [] ∧
      c.marked ⊆ c'.marked ∧ (∀ o, PointsTo cfg fuel h s.1 s.2 o → o ∈ c'.marked) ∧
      c'.work (heapAddresses cfg) ≤ c.work (heapAddresses cfg) := by
  have hroot : ∀ o, o ∈ targets cfg fuel h (words s.1 s.2) → Live cfg fuel h segments o :=
    fun o ho => .source ⟨s, hseg, mem_targets.mp ho⟩
  obtain ⟨m₁, hm₁, ha₁⟩ := visitWords_visits (words s.1 s.2) ha (getObject_total hc.tree hf)
    (hc.stable s hseg) fun o ho => hc.resolved hf (hroot o ho)
  have hwork₁ := Colours.work_visits (c := c) (heapAddresses cfg)
    fun o ho => hc.live_addresses hf (hroot o ho)
  have hs₁ : Sweeps (Rooted cfg fuel h segments) (Refers cfg fuel h)
      (c.visits (targets cfg fuel h (words s.1 s.2))) :=
    ⟨hs.covers.visits, hs.grey.visits, Colours.visits_subset hs.sound hroot⟩
  obtain ⟨m', c', hm', ha', hs', hgrey, hsub, hle⟩ := closure_spec hc hf fuel ha₁ hs₁ (by omega)
  refine ⟨m', c', ?_, ha', hs', hgrey, fun o ho => ?_, fun o ho => ?_, by omega⟩
  · obtain ⟨h₁, h₂⟩ := hc.bounds s hseg
    rw [segmentTraverse, if_pos ⟨h₁, by omega, h₂⟩, hm₁]
    exact hm'
  · exact hsub (Colours.mem_marked_visits.mpr (Or.inr ho))
  · exact hsub (Colours.mem_marked_visits.mpr (Or.inl (mem_targets.mpr ho)))

theorem mark_spec (hc : Clean cfg fuel h occupied segments) (hf : occupied.size < fuel)
    (rest : List (Nat × Nat)) (hrest : rest ⊆ segments) (ha : Agrees cfg fuel h m c)
    (hs : Sweeps (Rooted cfg fuel h segments) (Refers cfg fuel h) c) (hgrey : c.grey = [])
    (hwork : c.work (heapAddresses cfg) < fuel) :
    ∃ m' c', mark cfg fuel m rest = some m' ∧ Agrees cfg fuel h m' c' ∧
      Sweeps (Rooted cfg fuel h segments) (Refers cfg fuel h) c' ∧ c'.grey = [] ∧
      c.marked ⊆ c'.marked ∧
      ∀ s, s ∈ rest → ∀ o, PointsTo cfg fuel h s.1 s.2 o → o ∈ c'.marked := by
  induction rest generalizing m c with
  | nil => exact ⟨m, c, rfl, ha, hs, hgrey, subset_rfl, fun s hs => nomatch hs⟩
  | cons s rest ih =>
    obtain ⟨m₁, c₁, hm₁, ha₁, hs₁, hgrey₁, hsub₁, hroots, hle⟩ :=
      segmentTraverse_spec hc hf ha hs hwork (hrest List.mem_cons_self)
    obtain ⟨m', c', hm', ha', hs', hgrey', hsub, hall⟩ :=
      ih (fun q hq => hrest (List.mem_cons_of_mem _ hq)) ha₁ hs₁ hgrey₁ (by omega)
    refine ⟨m', c', ?_, ha', hs', hgrey', hsub₁.trans hsub, fun q hq o ho => ?_⟩
    · rw [mark, List.foldlM_cons, hm₁]
      exact hm'
    · rcases List.mem_cons.mp hq with rfl | hq
      · exact hsub (hroots o ho)
      · exact hall q hq o ho

theorem occupiedInside (ht : OccupiedTree cfg h occupied) :
    OccupiedInside cfg h := by
  intro i hi
  obtain ⟨v, hv, -, hblock⟩ := ht.exists_block hi
  rw [hblock]
  exact Or.inr (ht.inside v hv)

/-- Nothing is marked at the start. -/
theorem Clean.unmarked (hc : Clean cfg fuel h occupied segments) (ho : IsStart cfg h o) :
    isMarked cfg fuel h o ≠ some true := by
  rcases ho with hl | ⟨b, k, hs⟩
  · simp only [isMarked, if_pos hl, ne_eq, Option.bind_eq_some_iff, not_exists, not_and]
    intro found hfound
    cases found with
    | none => simp
    | some i =>
      obtain ⟨v, hv, -, hblock⟩ := hc.tree.exists_block (searchBst_below hfound).1
      simp [hblock, hc.flags v hv]
  · rw [hs.isMarked, hc.bits b hs.block k hs.index_lt]
    simp

theorem Clean.agrees (hc : Clean cfg fuel h occupied segments) {stack : Stack}
    (hstack : stack.data = []) : Agrees cfg fuel h ⟨h, stack⟩ ⟨∅, []⟩ := by
  refine ⟨SameButMarks.refl, hstack, fun o => ?_⟩
  exact iff_of_false (Set.notMem_empty o) fun ho => hc.unmarked ho.1 ho.2

theorem sweeps_nothing (source : Nat → Prop) (succ : Nat → Nat → Prop) :
    Sweeps source succ ⟨∅, []⟩ :=
  ⟨fun _ ha => ha.elim, fun _ ha => (nomatch ha), fun _ ha => ha.elim⟩

/-- All that `mark` does from a clean state. -/
theorem mark_colours (hc : Clean cfg fuel h occupied segments) (hf : occupied.size < fuel)
    (hsteps : 2 * cfg.heapSize < fuel) {stack : Stack} (hstack : stack.data = []) :
    ∃ m' c', mark cfg fuel ⟨h, stack⟩ segments = some m' ∧ Agrees cfg fuel h m' c' ∧
      m'.stack.data = [] ∧ ∀ o, o ∈ c'.marked ↔ Live cfg fuel h segments o := by
  obtain ⟨m', c', hm', ha', hs', hgrey, -, hroots⟩ := mark_spec hc hf segments
    (List.Subset.refl _) (hc.agrees hstack) (sweeps_nothing _ _) rfl
    (((Colours.work_le _ rfl).trans (card_heapAddresses_le cfg)).trans_lt hsteps)
  refine ⟨m', c', hm', ha', ha'.grey.trans hgrey, fun o => ⟨hs'.sound o, fun ho => ?_⟩⟩
  apply hs'.covers.reaches hgrey _ ho
  rintro q ⟨s, hs, hq⟩
  exact hroots s hs q hq

/-- With enough fuel marking ends, and then the marked objects are the live ones. -/
theorem mark_exact (hc : Clean cfg fuel h occupied segments) (hf : occupied.size < fuel)
    (hsteps : 2 * cfg.heapSize < fuel) {stack : Stack} (hstack : stack.data = []) :
    ∃ m', mark cfg fuel ⟨h, stack⟩ segments = some m' ∧ m'.stack.data = [] ∧
      ∀ o, getObject cfg fuel h o = some (some o) →
        (isMarked cfg fuel m'.heap o = some true ↔ Live cfg fuel h segments o) := by
  obtain ⟨m', c', hm', ha', hempty, hlive⟩ := mark_colours hc hf hsteps hstack
  refine ⟨m', hm', hempty, fun o ho => ?_⟩
  have hstart := getObject_start (occupiedInside hc.tree) ho
  rw [← hlive, ha'.marked, and_iff_right hstart]

end Traversal

/-- Two objects of 16 bytes: the first refers to itself and to the second, the second to the
first. The root word is at address 100. -/
def twoCells : Heap where
  small := {
    mem := fun x =>
      if x = 4104 then 16#8
      else if x = 100 ∨ x = 4176 ∨ x = 4200 then 0x50#8
      else if x = 4184 then 0x60#8
      else if x = 101 ∨ x = 4177 ∨ x = 4185 ∨ x = 4201 then 0x10#8
      else 0#8
    segregList := fun _ => none
    nextNode := fun _ => none
    emptyListHead := none }
  large := ⟨fun _ => ⟨⟨0, 0, false⟩, none, none⟩, some 0, none, none⟩

theorem twoCells_size : headerSize oneBlock twoCells.mem 0 = 16 := by decide +kernel

/-- The slots fill the block. -/
theorem twoCells_not_behind (a : Nat) : ¬ BehindSlots oneBlock twoCells a := by
  rintro ⟨b, hb, -, hlo, hhi⟩
  have hcount : oneBlock.blocksCount = 1 := rfl
  obtain rfl : b = 0 := by omega
  rw [twoCells_size] at hlo
  have hend : oneBlock.slotAddr 0 16 (slotCount 16) = oneBlock.blockAddr 0 + blockSize := by
    decide
  omega

theorem twoCells_clean : Clean oneBlock 8193 twoCells .nil [(100, 108)] := by
  have hcount : oneBlock.blocksCount = 1 := rfl
  constructor
  · exact ⟨rfl, List.Pairwise.nil, fun v hv => (nomatch hv)⟩
  · exact List.Pairwise.nil
  · intro b hb j hj
    obtain rfl : b = 0 := by omega
    have haddr : getBitmapAddr (oneBlock.blockAddr 0) = 4112 := rfl
    have hbytes : 8 * bitmapBytesCount = 512 := rfl
    have hzero : twoCells.mem (4112 + j / 8) = 0#8 := by
      simp only [Heap.mem, twoCells]
      rw [if_neg (by omega), if_neg (by omega), if_neg (by omega), if_neg (by omega)]
    rw [markBit, haddr, hzero]
    simp
  · exact fun v hv => (nomatch hv)
  · intro s hs
    rw [List.mem_singleton.mp hs]
    decide
  · intro s hs w hw x hwx hxw b hb hbit
    rw [List.mem_singleton.mp hs] at hw
    obtain ⟨-, hlt, -⟩ := mem_words.mp hw
    have hlow := hbit.1
    have hstart : 4096 ≤ oneBlock.blockAddr b := Nat.le_add_right _ _
    simp only [getBitmapAddr] at hlow
    omega
  · exact fun _ _ _ _ => twoCells_not_behind _
  · exact fun _ _ _ _ _ _ => twoCells_not_behind _

theorem mark_exact_cycle :
    ∃ m', mark oneBlock 8193 ⟨twoCells, createStack⟩ [(100, 108)] = some m' ∧
      isMarked oneBlock 8193 m'.heap 4192 = some true := by
  obtain ⟨m', hm', -, hexact⟩ := mark_exact twoCells_clean (show 0 < 8193 by decide)
    (show 2 * oneBlock.heapSize < 8193 by decide) (show createStack.data = [] from rfl)
  refine ⟨m', hm', (hexact 4192 (by decide +kernel)).mpr ?_⟩
  apply Reaches.step (a := 4176)
  · exact .source ⟨(100, 108), List.mem_singleton_self _, 100, by decide, by decide +kernel⟩
  · exact ⟨16, by decide +kernel, 4184, by decide, by decide +kernel⟩

end GarbageCollector.ExactMarking
