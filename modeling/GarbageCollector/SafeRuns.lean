import GarbageCollector.CleanMarks
import GarbageCollector.ExactMarking
import GarbageCollector.Placement

/-!
# Safety of whole runs

The answers of `gc_malloc` whose objects every collection since has kept do not overlap, and a
collection keeps exactly those of them that are live when it starts. A program that stores the
address of an object after a collection has freed it makes the address live, not the object: the
range can be handed out again. The runs considered stay clear of the branches that lose marks or
tree nodes.
-/

namespace GarbageCollector.SafeRuns

open BinaryTree Collector FailedAllocation CleanMarks ExactMarking
open ConcurrentAlloc (Apart)
open ResolvedRange (BehindSlots)

/-- The address and the size asked for. -/
def range (x : Answer) : Nat × Nat := (x.addr, x.size)

/-- The answers that every collection since has kept. -/
def held (s : State) : List (Nat × Nat) := (s.answers.filter Answer.kept).map range

/-- No root and no word of a live object points behind the last whole slot of a small block. -/
def PointsAtSlots (cfg : Config) (roots : Roots cfg) (s : State) : Action → Prop
  | .mark fuel =>
    (∀ segment, segment ∈ roots.segments → ∀ w, w ∈ words segment.1 segment.2 →
      ¬ BehindSlots cfg s.gc.heap (Bytes.load64 s.gc.heap.mem w)) ∧
    ∀ o size, Live cfg fuel s.gc.heap roots.segments o →
      getObjectSize cfg fuel s.gc.heap o = some size → ∀ w, w ∈ words o (o + size) →
        ¬ BehindSlots cfg s.gc.heap (Bytes.load64 s.gc.heap.mem w)
  | _ => True

/-- The step loses no mark and no tree node. -/
structure Faultless (cfg : Config) (roots : Roots cfg) (s : State) (a : Action) : Prop where
  clears : ClearsMarks cfg s a
  spares : SparesMarked cfg s a
  oneSided : SweepsOneSided s a
  pointers : PointsAtSlots cfg roots s a

structure SafeInv (cfg : Config) (s : State) : Prop where
  protects : s.phase = .mutator ∨ (∃ n, s.phase = .swept n) → AllProtected cfg s.gc (held s)
  placed : ∀ x, x ∈ held s → Placed cfg s.gc.heap x
  apart : (held s).Pairwise Apart

section Steps

variable {cfg : Config} {roots : Roots cfg} {s s' : State} {a : Action} {g : Gc} {n r fuel : Nat}
  {phase : Phase} {p : Gc × Option Nat} {x : Nat × Nat}

theorem held_some : held (s.attempted n phase (g, some r)) = (r, n) :: held s := rfl

theorem held_none : held (s.attempted n phase (g, none)) = held s := rfl

theorem held_afterSweep_sublist :
    (held (s.afterSweep cfg fuel n g)).Sublist (held s) := by
  simp only [held, State.afterSweep, List.filter_map, List.map_map]
  have hrange : range ∘ Answer.collect cfg fuel s.gc.heap = range := rfl
  rw [hrange]
  apply List.Sublist.map
  refine List.monotone_filter_right s.answers fun y hy => ?_
  simp only [Function.comp_apply, Answer.collect, Bool.and_eq_true] at hy
  exact hy.1

theorem marked_of_held (hx : x ∈ held (s.afterSweep cfg fuel n g)) :
    isMarked cfg fuel s.gc.heap x.1 = some true := by
  simp only [held, State.afterSweep, List.mem_map, List.mem_filter] at hx
  obtain ⟨z, ⟨⟨y, -, rfl⟩, hkept⟩, rfl⟩ := hx
  simp only [Answer.collect, Bool.and_eq_true, beq_iff_eq] at hkept
  exact hkept.2

theorem AllProtected.store {xs : List (Nat × Nat)} {w value : Nat} (h : AllProtected cfg g xs)
    (hw : Writable cfg w) : AllProtected cfg (Gc.store g w value) xs := by
  obtain ⟨place, hsolo, hxs⟩ := h
  have same : SameHeaders cfg g.heap.small.mem (Bytes.store64 g.heap.mem w value) :=
    store64_sameHeaders hw
  exact ⟨place, hsolo.setMem trivial same, fun x hx hin => (hxs x hx hin).setMem same⟩

/-- An attempt, with what it may be about to zero. -/
theorem attempted_safe (hi : Between cfg s.gc) (hl : LargeInv cfg True s)
    (h : SafeInv cfg s) (hphase : s.phase = .mutator ∨ ∃ m, s.phase = .swept m)
    (hfuel : depth cfg < fuel)
    (hfit : maxObjectSize < n → FitsChildless s.gc.heap.large (getSizeWithAlignment n))
    (hrun : allocateNewObject cfg fuel s.gc n = some p)
    (hother : p.2 = none → phase = .mutator ∨ (∃ m, phase = .swept m) →
      n ≤ maxObjectSize → NoOther cfg s.gc.heap.mem n) :
    SafeInv cfg (s.attempted n phase p) := by
  obtain ⟨free, occupied, spare, ht, hclear⟩ := hl
  have hclear := hclear fun m hm => by
    rcases hphase with hp | ⟨k, hp⟩ <;> cases hp.symm.trans hm
  have hsafe := h.protects hphase
  obtain ⟨hplaced, hnew⟩ := allocate_placed ht hclear hi.inside hfuel hfit hsafe h.placed hrun
  obtain ⟨g', res⟩ := p
  cases res with
  | some r =>
    have hnone : some r = none → n ≤ maxObjectSize → NoOther cfg s.gc.heap.mem n :=
      fun hr => nomatch hr
    obtain ⟨hr, hap⟩ := hnew r rfl
    constructor
    · rw [held_some]
      exact fun _ => (allocate_protected hsafe hi.inside hnone hrun).2 r rfl
    · intro x hx
      rcases List.mem_cons.mp hx with rfl | hx
      · exact hr
      · exact hplaced x hx
    · rw [held_some]
      exact List.Pairwise.cons hap h.apart
  | none =>
    constructor
    · intro hp
      rw [held_none]
      exact (allocate_protected hsafe hi.inside (fun _ hn => hother rfl hp hn) hrun).1
    · exact hplaced
    · exact h.apart

theorem outcome_safe (hi : Inv cfg s) (hl : LargeInv cfg True s) (h : SafeInv cfg s)
    (hok : Faultless cfg roots s a) (hs : Outcome cfg roots s a s') : SafeInv cfg s' := by
  cases hs with
  | refused => exact h
  | malloc hphase _ hfuel hrun =>
    apply attempted_safe (hi.between (by simp [hphase])) hl h (Or.inl hphase) hfuel
      hok.clears.1 hrun
    rintro - (hp | ⟨m, hp⟩) <;> cases hp
  | @mark n fuel g hphase _ hrun =>
    have hframe := (stopAndMark_marked (hi.between (by simp [hphase])) hrun).2
    constructor
    · rintro (hp | ⟨m, hp⟩) <;> cases hp
    · exact fun x hx => (h.placed x hx).mark hframe
    · exact h.apart
  | @sweep n fuel g hphase hfuel hrun =>
    obtain ⟨free, occupied, spare, ht, -⟩ := hl
    have hsub : (held (s.afterSweep cfg fuel n g)).Sublist (held s) := held_afterSweep_sublist
    have hmarked : ∀ x, x ∈ held (s.afterSweep cfg fuel n g) →
        Placed cfg s.gc.heap x ∧ isMarked cfg fuel s.gc.heap x.1 = some true :=
      fun x hx => ⟨h.placed x (hsub.subset hx), marked_of_held hx⟩
    obtain ⟨hprot, hplaced⟩ :=
      sweep_placed (hi.marked hphase) ht hfuel hok.oneSided hmarked hrun
    exact ⟨fun _ => hprot, hplaced, h.apart.sublist hsub⟩
  | @retry n fuel p hphase hfuel hrun =>
    have hfit := hok.clears.1
    simp only [TakesChildless, hphase] at hfit
    apply attempted_safe (hi.between (by simp [hphase])) hl h (Or.inr ⟨n, hphase⟩) hfuel hfit hrun
    intro hnone _ hn
    obtain ⟨g', res⟩ := p
    subst hnone
    have hspares := hok.spares
    simp only [SparesMarked, hphase] at hspares
    exact hspares hn (fails_of_none hrun)
  | @store w value hphase hw =>
    constructor
    · exact fun _ => AllProtected.store (h.protects (Or.inl hphase)) hw
    · exact fun x hx => (h.placed x hx).store (store64_sameHeaders hw)
    · exact h.apart

theorem reachable_safe (h : Reachable cfg roots (Faultless cfg roots) s) : SafeInv cfg s := by
  apply h.invariant_of (I := fun s => Inv cfg s ∧ LargeInv cfg True s) (P := SafeInv cfg)
  · intro s hr
    refine ⟨reachable_inv hr, reachable_largeInv hr ?_ fun _ => ?_⟩
    · exact fun _ _ hok => hok.clears.1
    · exact fun _ _ hok => hok.oneSided
  · rintro _ ⟨m, hm, rfl⟩
    constructor
    · exact fun _ => ⟨_, init_solo hm, fun _ hx => nomatch hx⟩
    · exact fun _ hx => nomatch hx
    · exact List.Pairwise.nil
  · intro s a s' hi hsafe hok hs
    exact outcome_safe hi.1 hi.2 hsafe hok (step_outcome hs)

/-- Before a collection all that `mark_colours` asks for holds. -/
theorem clean_of_safe {free occupied : BlockTree} {spare : List Nat}
    (ht : Trees cfg True s.gc.heap.large free occupied spare) (hclear : Clear occupied)
    (hmark : NoMark cfg s.gc.heap) (hp : PointsAtSlots cfg roots s (.mark fuel)) :
    Clean cfg fuel s.gc.heap occupied roots.segments := by
  constructor
  · exact ht.occupiedTree
  · exact (ht.tiled trivial).ordered.1
  · exact hmark.bits
  · exact hclear
  · exact roots.bounds
  · exact fun segment hsegment w hw => stable_of_apart (roots.apart segment hsegment w hw)
  · exact hp.1
  · exact hp.2

/-- Any bounds above the depth of the occupied tree find the same flag. -/
theorem isMarked_fuel {h : Heap} {t : BlockTree} {fuel' : Nat}
    (ht : Repr h.large.nodes h.large.occupiedRoot t) (hf : t.size < fuel) (hf' : t.size < fuel')
    (o : Nat) : isMarked cfg fuel' h o = isMarked cfg fuel h o := by
  rw [isMarked, isMarked, searchBst_repr ht hf, searchBst_repr ht hf']

/-- A collection keeps an answer that was kept so far exactly when its object is live. -/
theorem collect_iff_live {fuel' : Nat} {x : Answer}
    (h : Reachable cfg roots (Faultless cfg roots) s) (hok : Faultless cfg roots s (.mark fuel))
    (hs : step cfg roots s (.mark fuel) = some s') (hfuel' : depth cfg < fuel')
    (hx : x ∈ s.answers) (hkept : x.kept = true) :
    (x.collect cfg fuel' s'.gc.heap).kept = true ↔
      Live cfg fuel s.gc.heap roots.segments x.addr := by
  have hi : Inv cfg s := reachable_inv h
  have hl : LargeInv cfg True s :=
    reachable_largeInv h (fun _ _ hok => hok.clears.1) fun _ _ _ hok => hok.oneSided
  obtain ⟨free, occupied, spare, ht, hclear⟩ := hl
  have hplaced := (reachable_safe h).placed (range x)
    (List.mem_map_of_mem (List.mem_filter.mpr ⟨hx, hkept⟩))
  have hstart : IsStart cfg s.gc.heap x.addr := hplaced.isStart
  cases step_outcome hs with
  | @mark n _ g hphase hfuel hrun =>
    have hclean : Clean cfg fuel s.gc.heap occupied roots.segments :=
      clean_of_safe ht (hclear (by simp [hphase]))
        (reachable_noMark (h.mono fun _ _ hok => hok.clears) hphase) hok.pointers
    obtain ⟨hmarked, hframe⟩ := stopAndMark_marked (hi.between (by simp [hphase])) hrun
    have hlen := ht.shape.length
    simp only [depth] at hfuel hfuel'
    obtain ⟨m, hm, rfl⟩ := Option.map_eq_some_iff.mp hrun
    obtain ⟨m', c, hm', hagrees, -, hlive⟩ := mark_colours hclean (by omega : occupied.size < fuel)
      (by omega) (hi.between (by simp [hphase])).stack
    obtain rfl : m' = m := Option.some.inj (hm'.symm.trans hm)
    have ht' := (ht.mark hframe).shape
    have hlen' := ht'.length
    have hsame : isMarked cfg fuel' m'.heap x.addr = isMarked cfg fuel m'.heap x.addr :=
      isMarked_fuel ht'.occupiedTree (by omega) (by omega) x.addr
    calc (x.collect cfg fuel' m'.heap).kept = true
        ↔ isMarked cfg fuel' m'.heap x.addr = some true := by
          simp only [Answer.collect, hkept, Bool.true_and, beq_iff_eq]
      _ ↔ isMarked cfg fuel m'.heap x.addr = some true := by rw [hsame]
      _ ↔ x.addr ∈ c.marked := by rw [hagrees.marked, and_iff_right hstart]
      _ ↔ Live cfg fuel s.gc.heap roots.segments x.addr := hlive x.addr

/-- The answers kept so far do not overlap, and the next collection keeps those of them whose
objects are live when it starts. -/
theorem held_answers_apart (h : Reachable cfg roots (Faultless cfg roots) s) :
    (held s).Pairwise Apart ∧
      ∀ fuel s', Faultless cfg roots s (.mark fuel) → step cfg roots s (.mark fuel) = some s' →
        ∀ fuel', depth cfg < fuel' → ∀ x, x ∈ s.answers → x.kept = true →
          ((x.collect cfg fuel' s'.gc.heap).kept = true ↔
            Live cfg fuel s.gc.heap roots.segments x.addr) :=
  ⟨(reachable_safe h).apart, fun _ _ hok hs _ hfuel' _ hx hkept =>
    collect_iff_live h hok hs hfuel' hx hkept⟩

end Steps

/-- Three objects of 8 bytes are freed, and the block serves size 16. The program has kept the
address of the third one as a number and stores it: the next object of 16 bytes starts there. -/
theorem freed_range_returned :
    ¬ ∀ (cfg : Config) (roots : Roots cfg) (s s' : State) (a : Action) (x : Answer) (fuel : Nat),
      Reachable cfg roots Transition.anyStep s → step cfg roots s a = some s' →
      s'.answers = x :: s.answers → depth cfg < fuel → ∀ y, y ∈ s.answers →
        Live cfg fuel s'.gc.heap roots.segments y.addr → Apart (range x) (range y) := by
  intro h
  obtain ⟨s, hr, hy, hstep⟩ := (Transition.Reachable.init start_start :
      Reachable oneBlock oneRoot Transition.anyStep start).exists_of_run
    [.malloc 8 8196, .malloc 8 8196, .malloc 8 8196, .malloc 16 8196, .mark 8196, .sweep 8196,
      .retry 8196, .store 104 4192]
    (fun s => ⟨4192, 8, false, false⟩ ∈ s.answers ∧
      (step oneBlock oneRoot s (.malloc 16 8196)).any (fun s' =>
        decide (s'.answers = ⟨4192, 16, true, true⟩ :: s.answers ∧
          getObject oneBlock 8196 s'.gc.heap (Bytes.load64 s'.gc.heap.mem 104) =
            some (some 4192))) = true) (by decide +kernel)
  cases hs : step oneBlock oneRoot s (.malloc 16 8196) with
  | none => simp [hs] at hstep
  | some s' =>
    rw [hs] at hstep
    obtain ⟨hanswers, hroot⟩ := of_decide_eq_true hstep
    have hlive : Live oneBlock 8196 s'.gc.heap oneRoot.segments 4192 :=
      .source ⟨(104, 112), List.mem_singleton_self _, 104, by decide, hroot⟩
    have hap := h oneBlock oneRoot s s' (.malloc 16 8196) ⟨4192, 16, true, true⟩ 8196 hr hs hanswers
      (by decide) ⟨4192, 8, false, false⟩ hy hlive
    have hoverlap :
        ¬ (4192 + getSizeWithAlignment 16 ≤ 4192 ∨ 4192 + getSizeWithAlignment 8 ≤ 4192) := by
      decide
    exact hoverlap hap

/-- Sufficient for `Faultless`: the slots fill the blocks and one large object is left at most. -/
def Checked (cfg : Config) (s : State) (a : Action) : Prop :=
  NoBitSet cfg s a ∧ SparesMarked cfg s a ∧
    match a with
    | .mark _ => ∀ b, b < cfg.blocksCount → 1 ≤ headerSize cfg s.gc.heap.mem b →
        cfg.slotAddr b (headerSize cfg s.gc.heap.mem b)
          (slotCount (headerSize cfg s.gc.heap.mem b)) = cfg.blockAddr b + blockSize
    | .sweep _ =>
      match s.gc.heap.large.occupiedRoot with
      | none => True
      | some i => (s.gc.heap.large.nodes i).left = none ∧ (s.gc.heap.large.nodes i).right = none
    | _ => True

def decideRoot (nodes : Nodes) (root : Option Nat) :
    Decidable (match root with
      | none => True
      | some i => (nodes i).left = none ∧ (nodes i).right = none) :=
  match root with
  | none => isTrue trivial
  | some _ => inferInstanceAs (Decidable (_ ∧ _))

instance (cfg : Config) (s : State) (a : Action) : Decidable (Checked cfg s a) :=
  match a with
  | .mark _ => inferInstanceAs (Decidable (_ ∧ _ ∧ ∀ b, b < _ → _ → _))
  | .sweep _ =>
    @instDecidableAnd _ _ _ (@instDecidableAnd _ _ _ (decideRoot s.gc.heap.large.nodes _))
  | .malloc _ _ | .retry _ | .store _ _ => inferInstanceAs (Decidable (_ ∧ _ ∧ True))

theorem faultless_of_checked {cfg : Config} {roots : Roots cfg} {s : State} {a : Action}
    (h : Checked cfg s a) : Faultless cfg roots s a := by
  refine ⟨clearsMarks_of_noBitSet h.1, h.2.1, ?_, ?_⟩
  · cases a with
    | sweep fuel =>
      have hroot := h.2.2
      intro i hi _
      simp only at hroot
      split at hroot
      · rename_i hnone
        rw [hnone] at hi
        cases hi
      · rename_i j hj
        rw [hj] at hi
        obtain ⟨hleft, hright⟩ := hroot
        cases hi with
        | here =>
          refine Or.inl fun k hk => ?_
          rw [hleft] at hk
          cases hk
        | left hi =>
          rw [hleft] at hi
          cases hi
        | right hi =>
          rw [hright] at hi
          cases hi
    | _ => trivial
  · cases a with
    | mark fuel =>
      have hnot : ∀ a, ¬ BehindSlots cfg s.gc.heap a := by
        rintro a ⟨b, hb, hsize, hlo, hhi⟩
        have hfull := h.2.2 b hb hsize
        omega
      exact ⟨fun _ _ _ _ => hnot _, fun _ _ _ _ _ _ => hnot _⟩
    | _ => trivial

/-- The small object is kept by a collection that frees the large one, whose range is returned
again before the next small one. -/
theorem held_answers_apart_collection :
    (∃ s : State, held s = [(4184, 8), (8192, 4096), (4176, 8)] ∧ (held s).Pairwise Apart) ∧
      ∃ s s' : State, step oneBlock oneRoot s (.mark 8196) = some s' ∧
        ((⟨4176, 8, true, true⟩ : Answer).collect oneBlock 8196 s'.gc.heap).kept = true := by
  have hstart : Reachable oneBlock oneRoot (Checked oneBlock) start := .init start_start
  have hmono : ∀ {s : State}, Reachable oneBlock oneRoot (Checked oneBlock) s →
      Reachable oneBlock oneRoot (Faultless oneBlock oneRoot) s :=
    fun hr => hr.mono fun _ _ hok => faultless_of_checked hok
  constructor
  · obtain ⟨s, hr, hheld⟩ := hstart.exists_of_run
      [.malloc 8 8196, .store 104 4176, .malloc 4096 8196, .malloc 4096 8196, .mark 8196,
        .sweep 8196, .retry 8196, .malloc 8 8196]
      (fun s => held s = [(4184, 8), (8192, 4096), (4176, 8)]) (by decide +kernel)
    exact ⟨s, hheld, (held_answers_apart (hmono hr)).1⟩
  · obtain ⟨s, hr, hx, hroot, hok, hstep⟩ := hstart.exists_of_run
      [.malloc 8 8196, .store 104 4176, .malloc 4096 8196, .malloc 4096 8196]
      (fun s => ⟨4176, 8, true, true⟩ ∈ s.answers ∧
        getObject oneBlock 8196 s.gc.heap (Bytes.load64 s.gc.heap.mem 104) = some (some 4176) ∧
        Checked oneBlock s (.mark 8196) ∧ (step oneBlock oneRoot s (.mark 8196)).isSome = true)
      (by decide +kernel)
    obtain ⟨s', hs⟩ := Option.isSome_iff_exists.mp hstep
    have hlive : Live oneBlock 8196 s.gc.heap oneRoot.segments 4176 :=
      .source ⟨(104, 112), List.mem_singleton_self _, 104, by decide, hroot⟩
    exact ⟨s, s', hs, ((held_answers_apart (hmono hr)).2 8196 s' (faultless_of_checked hok) hs 8196
      (by decide) ⟨4176, 8, true, true⟩ hx rfl).mpr hlive⟩

end GarbageCollector.SafeRuns
