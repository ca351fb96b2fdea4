import GarbageCollector.ConcurrentAlloc
import GarbageCollector.SoloCall

/-!
# No slot is lost

Between two collections the walks of the threads pass every slot of a block once. A slot that was
not marked and has not been returned is still ahead of a walk, or its block waits in a list,
whatever the order of the steps of the threads.
-/

namespace GarbageCollector

open Bytes LinkedList

variable {T : Type}

/-- A block of a thread is in its cache or at hand. -/
structure Held (th : T → Local) (place : Nat → Place T) : Prop where
  owned : ∀ b t n, place b = .owned t n → (th t).nodesCache n = some b ∨ (th t).pc.atBlock n b
  fresh : ∀ b t, place b = .fresh t → ∃ n, (th t).pc = .initHeader n b

section Held

variable {cfg : Config} {s s' : SmallHeap} {th : T → Local} {place place' : Nat → Place T} {t u : T}
  {l' : Local} {b c m n : Nat}

/-- A block in the hands of another thread was there before the step. -/
theorem Moved.before (hm : Moved s place t s' place') (hu : u ≠ t) (hp : (place' b).heldBy u) :
    place b = place' b := by
  have hsame : ∀ {c : Nat} {q : Place T}, ¬ q.heldBy u → (Function.update place c q b).heldBy u →
      place b = Function.update place c q b := by
    intro c q hq hb
    by_cases hbc : b = c
    · rw [hbc, Function.update_self] at hb
      exact absurd hb hq
    · rw [Function.update_of_ne hbc]
  cases hm with
  | popSegreg | popEmpty | initialise => exact hsame (fun he : t = u => hu he.symm) hp
  | abandon => exact hsame (fun he : False => he) hp
  | stay => rfl

/-- The other blocks of a thread at work are in its cache, for other sizes. -/
theorem Held.cached_other (h : Owned cfg s th place) (hh : Held th place)
    (hpc : (th t).pc.atBlock m c) (hp : place b = .owned t n) (hne : b ≠ c) :
    (th t).nodesCache n = some b ∧ n ≠ m := by
  have hw := h.working t
  have hcache : (th t).nodesCache n = some b := by
    refine (hh.owned b t n hp).resolve_right fun hat => hne ?_
    cases hl : (th t).pc <;> simp only [hl, Pc.atBlock] at hpc hat <;> omega
  refine ⟨hcache, ?_⟩
  rintro rfl
  cases hl : (th t).pc <;> simp only [hl, Pc.atBlock] at hpc <;> simp only [Working, hl] at hw
  case examine m' c' sl ch =>
    obtain ⟨rfl, rfl⟩ := hpc
    have hcached := hw.2.1
    rw [hcache] at hcached
    split at hcached
    · exact hne (Option.some.inj hcached)
    · cases hcached
  case finish m' c' =>
    obtain ⟨rfl, rfl⟩ := hpc
    rcases hw.2.1 with hcached | hcached <;> rw [hcache] at hcached
    · cases hcached
    · exact hne (Option.some.inj hcached)

theorem Held.cached (hh : Held th place) (hat : ¬ (th t).pc.atBlock n b)
    (hp : place b = .owned t n) : (th t).nodesCache n = some b :=
  (hh.owned b t n hp).resolve_right hat

/-- The blocks of the acting thread after its step. -/
theorem LocalStep.owned_held [DecidableEq T] (hs : LocalStep cfg s (th t) s' l')
    (h : Owned cfg s th place) (hh : Held th place)
    (hp : placeAfter cfg t s (th t) place b = .owned t n) :
    l'.nodesCache n = some b ∨ l'.pc.atBlock n b := by
  cases hs with
  | @popSegreg m c hpc hhead =>
    simp only [placeAfter, hpc, hhead] at hp
    by_cases hbc : b = c
    · rw [hbc, Function.update_self, Place.owned.injEq] at hp
      exact Or.inr ⟨hp.2, hbc.symm⟩
    · rw [Function.update_of_ne hbc] at hp
      exact Or.inl (hh.cached (by simp [hpc, Pc.atBlock]) hp)
  | @popEmpty m c hpc hhead =>
    simp only [placeAfter, hpc, hhead] at hp
    by_cases hbc : b = c
    · rw [hbc, Function.update_self] at hp
      cases hp
    · rw [Function.update_of_ne hbc] at hp
      exact Or.inl (hh.cached (by simp [hpc, Pc.atBlock]) hp)
  | @init m c hpc =>
    simp only [placeAfter, hpc] at hp
    by_cases hbc : b = c
    · rw [hbc, Function.update_self, Place.owned.injEq] at hp
      exact Or.inr ⟨hp.2, hbc.symm⟩
    · rw [Function.update_of_ne hbc] at hp
      exact Or.inl (hh.cached (by simp [hpc, Pc.atBlock]) hp)
  | @found m c sl ch hpc hroom hbit | @skip m c sl ch hpc hroom hbit =>
    simp only [placeAfter, hpc, if_pos hroom] at hp
    rcases hh.owned b t n hp with hcache | hat
    · exact Or.inl hcache
    · rw [hpc] at hat
      exact Or.inr hat
  | @exhaustedCache m c sl hpc hroom | @exhausted m c sl hpc hroom =>
    simp only [placeAfter, hpc, if_neg hroom] at hp
    by_cases hbc : b = c
    · rw [hbc, Function.update_self] at hp
      cases hp
    · rw [Function.update_of_ne hbc] at hp
      have hat : (th t).pc.atBlock m c := by
        rw [hpc]
        exact ⟨rfl, rfl⟩
      obtain ⟨hcache, hne⟩ := Held.cached_other h hh hat hp hbc
      exact Or.inl (by simp [hcache, hne])
  | @finish m c hpc =>
    have hat : (th t).pc.atBlock m c := by
      rw [hpc]
      exact ⟨rfl, rfl⟩
    simp only [placeAfter, hpc] at hp
    by_cases hbc : b = c
    · subst hbc
      split at hp
      · rw [Function.update_self] at hp
        cases hp
      · rename_i hroom
        obtain ⟨-, -, -, hplace, -⟩ := h.at t hpc
        rw [hplace, Place.owned.injEq] at hp
        obtain ⟨-, rfl⟩ := hp
        exact Or.inl (by simp [hroom])
    · have hp' : place b = .owned t n := by
        split at hp
        · rwa [Function.update_of_ne hbc] at hp
        · exact hp
      obtain ⟨hcache, hne⟩ := Held.cached_other h hh hat hp' hbc
      exact Or.inl (by simp [hcache, hne])
  | segregEmpty hpc hhead | outOfBlocks hpc hhead =>
    simp only [placeAfter, hpc, hhead] at hp
    exact Or.inl (hh.cached (by simp [hpc, Pc.atBlock]) hp)
  | fromCache hpc | noCache hpc | nextList hpc | enterList hpc | fillDone hpc | fill hpc =>
    simp only [placeAfter, hpc] at hp
    exact Or.inl (hh.cached (by simp [hpc, Pc.atBlock]) hp)

theorem LocalStep.fresh_held (hs : LocalStep cfg s (th t) s' l') (hh : Held th place)
    (hp : placeAfter cfg t s (th t) place b = .fresh t) :
    ∃ n, l'.pc = .initHeader n b := by
  have hold : ∀ pc, (th t).pc = pc → (∀ n, pc ≠ .initHeader n b) → place b ≠ .fresh t := by
    intro pc hpc hne hplace
    obtain ⟨n, hn⟩ := hh.fresh b t hplace
    exact hne n (hpc.symm.trans hn)
  cases hs with
  | @popEmpty m c hpc hhead =>
    simp only [placeAfter, hpc, hhead] at hp
    by_cases hbc : b = c
    · exact ⟨m, by rw [hbc, Local.goto_pc]⟩
    · rw [Function.update_of_ne hbc] at hp
      exact absurd hp (hold _ hpc (by simp))
  | @init m c hpc =>
    simp only [placeAfter, hpc] at hp
    by_cases hbc : b = c
    · rw [hbc, Function.update_self] at hp
      cases hp
    · rw [Function.update_of_ne hbc] at hp
      exact absurd hp (hold _ hpc (by simp [Ne.symm hbc]))
  | @popSegreg m c hpc hhead =>
    simp only [placeAfter, hpc, hhead] at hp
    by_cases hbc : b = c
    · rw [hbc, Function.update_self] at hp
      cases hp
    · rw [Function.update_of_ne hbc] at hp
      exact absurd hp (hold _ hpc (by simp))
  | @found m c sl ch hpc hroom hbit | @skip m c sl ch hpc hroom hbit =>
    simp only [placeAfter, hpc, if_pos hroom] at hp
    exact absurd hp (hold _ hpc (by simp))
  | @exhaustedCache m c sl hpc hroom | @exhausted m c sl hpc hroom =>
    simp only [placeAfter, hpc, if_neg hroom] at hp
    by_cases hbc : b = c
    · rw [hbc, Function.update_self] at hp
      cases hp
    · rw [Function.update_of_ne hbc] at hp
      exact absurd hp (hold _ hpc (by simp))
  | @finish m c hpc =>
    simp only [placeAfter, hpc] at hp
    split at hp
    · by_cases hbc : b = c
      · rw [hbc, Function.update_self] at hp
        cases hp
      · rw [Function.update_of_ne hbc] at hp
        exact absurd hp (hold _ hpc (by simp))
    · exact absurd hp (hold _ hpc (by simp))
  | segregEmpty hpc hhead | outOfBlocks hpc hhead =>
    simp only [placeAfter, hpc, hhead] at hp
    exact absurd hp (hold _ hpc (by simp))
  | fromCache hpc | noCache hpc | nextList hpc | enterList hpc | fillDone hpc | fill hpc =>
    simp only [placeAfter, hpc] at hp
    exact absurd hp (hold _ hpc (by simp))

theorem LocalStep.held_kept [DecidableEq T] (hs : LocalStep cfg s (th t) s' l')
    (h : Owned cfg s th place) (hh : Held th place) :
    Held (Function.update th t l') (placeAfter cfg t s (th t) place) := by
  have hm := hs.moved h
  constructor
  · intro b u n hp
    by_cases hu : u = t
    · subst hu
      rw [Function.update_self]
      exact hs.owned_held h hh hp
    · rw [Function.update_of_ne hu]
      exact hh.owned b u n ((hm.before hu (hp ▸ rfl)).trans hp)
  · intro b u hp
    by_cases hu : u = t
    · subst hu
      rw [Function.update_self]
      exact hs.fresh_held hh hp
    · rw [Function.update_of_ne hu]
      exact hh.fresh b u ((hm.before hu (hp ▸ rfl)).trans hp)

end Held

section Slot

variable [DecidableEq T] {cfg : Config} {s s' : SmallHeap} {th : T → Local} {place : Nat → Place T}
  {t : T} {l' : Local} {b c k m n : Nat}

/-- Of two slots the one that does not start earlier, and is not the same, starts behind the
other. -/
theorem slotAddr_succ_le (hn : InRange n) {j : Nat} (hle : cfg.slotAddr b n j ≤ cfg.slotAddr b n k)
    (hne : k ≠ j) : cfg.slotAddr b n j + getSizeWithAlignment n ≤ cfg.slotAddr b n k := by
  have hlt : j < k := by
    by_contra hge
    have heq := le_antisymm hle (cfg.slotAddr_mono (Nat.le_of_not_lt hge))
    exact hne (cfg.slotAddr_inj hn.1 heq).symm
  rw [← cfg.slotAddr_succ]
  exact cfg.slotAddr_mono hlt

/-- A slot ahead of the walk stays ahead of it, or it is the slot returned, or one that is
marked. -/
theorem LocalStep.slot_ahead (hs : LocalStep cfg s (th t) s' l') (h : Owned cfg s th place)
    (hk : k < slotCount (headerSize cfg s.mem b)) (hp : (place b).inUse)
    (ha : AheadOfWalk cfg s th b k (place b)) :
    AheadOfWalk cfg s' (Function.update th t l') b k (placeAfter cfg t s (th t) place b) ∨
      (∃ n, (th t).pc = .finish n b ∧ headerSize cfg s.mem b = n ∧
        slider cfg s.mem b = cfg.slotAddr b n k) ∨
      markBit cfg s.mem b k = true := by
  cases hs with
  | @fromCache n c hpc hc =>
    simp only [placeAfter, hpc]
    by_cases hbc : b = c
    · subst hbc
      obtain ⟨-, -, hplace⟩ := h.cached t n b hc
      rw [hplace] at ha ⊢
      exact Or.inl (aheadOfWalk_examine ha.1 ha.1)
    · exact Or.inl (ha.examine rfl hbc)
  | @popSegreg n c hpc hh =>
    simp only [placeAfter, hpc, hh]
    obtain ⟨hn, -⟩ := h.at t hpc
    by_cases hbc : b = c
    · subst hbc
      obtain ⟨hb, hplace⟩ := (hh ▸ h.segreg n hn.lt).head_mem
      obtain ⟨-, hsl⟩ : HeaderAt cfg s.mem b (.segreg n : Place T) := hplace ▸ h.header b hb
      have hle := cfg.slotAddr_mono (i := b) (n := n) (Nat.zero_le k)
      rw [Function.update_self]
      exact Or.inl (aheadOfWalk_examine (hsl.trans_le hle) (hsl.trans_le hle))
    · rw [Function.update_of_ne hbc]
      exact Or.inl (ha.examine rfl hbc)
  | @popEmpty n c hpc hh =>
    simp only [placeAfter, hpc, hh]
    have hplace := (hh ▸ h.empty).head_mem.2
    have hbc : b ≠ c := by
      rintro rfl
      rw [hplace] at hp
      exact hp
    rw [Function.update_of_ne hbc]
    exact Or.inl (ha.keep rfl (by simp))
  | @init n c hpc =>
    obtain ⟨hn, -, hc, hplace⟩ := h.at t hpc
    have hbc : b ≠ c := by
      rintro rfl
      rw [hplace] at hp
      exact hp
    simp only [placeAfter, hpc, Function.update_of_ne hbc]
    exact Or.inl (ha.keep (by simp [slider_initHeader cfg _ hc, hbc]) (by simp))
  | @found n c sl ch hpc hroom hclear =>
    obtain ⟨hn, -, hc, hplace, j, hj, hsl, -⟩ := h.at t hpc
    simp only [placeAfter, hpc, if_pos hroom]
    by_cases hbc : b = c
    · subst hbc
      rw [hplace] at ha ⊢
      refine Or.inl (aheadOfWalk_self ?_ (by simp))
      rw [SmallHeap.setMem_mem, slider_store_slider, if_pos rfl, hsl,
        Nat.mod_eq_of_lt (slotAddr_lt hc hn hj), ← hsl]
      exact ha.2 sl ch hpc
    · exact Or.inl (ha.keep (by simp [slider_store_slider, hbc]) (by simp))
  | @skip n c sl ch hpc hroom hset =>
    obtain ⟨hn, -, hc, hplace, j, -, rfl, -⟩ := h.at t hpc
    have hsame := clearBit_same (m := s.mem) hn hc hroom
    simp only [placeAfter, hpc, if_pos hroom]
    by_cases hbc : b = c
    · subst hbc
      have hsize : headerSize cfg s.mem b = n := (hplace ▸ h.header b hc).2.1
      rw [hplace] at ha ⊢
      by_cases hkj : k = j
      · -- the slot that the walk passes has its bit set
        subst hkj
        refine Or.inr (Or.inr ?_)
        rw [ne_eq, getBit_slotAddr hn hsize hroom] at hset
        exact Bool.eq_true_of_not_eq_false hset
      · have hle := slotAddr_succ_le hn (ha.2 _ ch hpc) hkj
        exact Or.inl (aheadOfWalk_examine (hsame.slider.trans_le ha.1) hle)
    · exact Or.inl (ha.examine hsame.slider hbc)
  | @exhaustedCache n c sl hpc hroom | @exhausted n c sl hpc hroom =>
    obtain ⟨hn, -, hc, hplace, -⟩ := h.at t hpc
    simp only [placeAfter, hpc, if_neg hroom]
    have hbc : b ≠ c := by
      rintro rfl
      have hsize : headerSize cfg s.mem b = n := (hplace ▸ h.header b hc).2.1
      rw [hsize] at hk
      rw [hplace] at ha
      exact hroom (not_ahead_of_full hn hk (ha.2 _ _ hpc))
    rw [Function.update_of_ne hbc]
    exact Or.inl (ha.keep rfl (by simp))
  | @finish n c hpc =>
    obtain ⟨hn, -, hc, hplace, j, -, hsl, -⟩ := h.at t hpc
    have hsize : headerSize cfg s.mem c = n := (hplace ▸ h.header c hc).2.1
    by_cases hbc : b = c
    · subst hbc
      by_cases hkj : k = j
      · exact Or.inr (Or.inl ⟨n, hpc, hsize, hkj ▸ hsl⟩)
      · rw [hplace] at ha
        rw [hsize] at hk
        have hle := slotAddr_succ_le hn (hsl ▸ ha.1) hkj
        have hend := not_ahead_of_full hn hk hle
        have hpos := getSizeWithAlignment_pos hn.1
        have hroom : ¬ slider cfg s.mem b + getSizeWithAlignment n ≥
            cfg.blockAddr b + blockSize := by
          omega
        simp only [placeAfter, hpc, if_neg hroom, hplace]
        refine Or.inl (aheadOfWalk_self ?_ (by simp))
        rw [SmallHeap.setMem_mem, slider_store_slider, if_pos rfl, hsl]
        exact (Nat.mod_le _ _).trans hle
    · have hplaces : placeAfter cfg t s (th t) place b = place b := by
        simp only [placeAfter, hpc]
        split
        · exact Function.update_of_ne hbc _ _
        · rfl
      rw [hplaces]
      exact Or.inl (ha.keep (by simp [slider_store_slider, hbc]) (by simp))
  | @fill n i c hpc =>
    simp only [placeAfter, hpc]
    refine Or.inl (ha.keep (slider_zeroBitmap cfg _) fun m sl ch he => ?_)
    rw [Local.goto_pc] at he
    split at he <;> cases he
  | segregEmpty hpc hh | outOfBlocks hpc hh =>
    simp only [placeAfter, hpc, hh]
    exact Or.inl (ha.keep rfl (by simp))
  | noCache hpc | nextList hpc | enterList hpc | fillDone hpc =>
    simp only [placeAfter, hpc]
    exact Or.inl (ha.keep rfl (by simp))

omit [DecidableEq T] in
/-- A block comes into use when the acting thread writes its header. -/
theorem Moved.used_before {place' : Nat → Place T} (hm : Moved s place t s' place')
    (h : Owned cfg s th place) (hp : (place' b).inUse) : (place b).inUse ∨ place b = .fresh t := by
  have hother : ∀ {c : Nat} {q : Place T}, ((place c).inUse ∨ place c = .fresh t) →
      (Function.update place c q b).inUse → (place b).inUse ∨ place b = .fresh t := by
    intro c q hc hb
    by_cases hbc : b = c
    · exact hbc ▸ hc
    · rw [Function.update_of_ne hbc] at hb
      exact Or.inl hb
  cases hm with
  | @popSegreg m c _ hn hh =>
    have hplace := (hh ▸ h.segreg _ hn.lt).head_mem.2
    exact hother (Or.inl (hplace ▸ trivial)) hp
  | @popEmpty c _ hh =>
    by_cases hbc : b = c
    · rw [hbc, Function.update_self] at hp
      exact hp.elim
    · rw [Function.update_of_ne hbc] at hp
      exact Or.inl hp
  | initialise hb => exact hother (Or.inr hb) hp
  | abandon hb => exact hother (Or.inl (hb ▸ trivial)) hp
  | stay => exact Or.inl hp

/-- All slots of a block are ahead once its header is written. -/
theorem LocalStep.new_block (hs : LocalStep cfg s (th t) s' l') (h : Owned cfg s th place)
    (hh : Held th place) (hp : ¬ (place b).inUse)
    (hp' : (placeAfter cfg t s (th t) place b).inUse) :
    AheadOfWalk cfg s' (Function.update th t l') b k (placeAfter cfg t s (th t) place b) := by
  have hfresh : place b = .fresh t := ((hs.moved h).used_before h hp').resolve_left hp
  obtain ⟨n, hpc⟩ := hh.fresh b t hfresh
  cases hs with
  | @init n' c hpc' =>
    cases hpc.symm.trans hpc'
    obtain ⟨hn, -, hc, -⟩ := h.at t hpc
    simp only [placeAfter, hpc, Function.update_self]
    refine aheadOfWalk_self ?_ (by simp)
    have hslider : slider cfg (initHeader cfg s.mem b n) b = cfg.slotAddr b n 0 := by
      rw [slider_initHeader cfg _ hc, if_pos rfl, cfg.slotAddr_zero]
    rw [SmallHeap.setMem_mem, hslider]
    exact cfg.slotAddr_mono (Nat.zero_le k)
  | _ hpc' => cases hpc.symm.trans hpc'

end Slot

namespace NoLostSlots

open ConcurrentAlloc

structure Inv (cfg : Config) {n : Nat} (s : State n) (place : Nat → Place (Fin n)) : Prop where
  base : ConcurrentAlloc.Inv cfg s place
  held : Held s.thread place
  /-- No bit is set between two collections. -/
  bits : ∀ b j, j < 8 * bitmapBytesCount → markBit cfg s.heap.mem b j = true →
    markBit cfg s.sweptMem b j = true
  slots : ∀ b k, b < cfg.blocksCount → (place b).inUse →
    k < slotCount (headerSize cfg s.heap.mem b) →
    AheadOfWalk cfg s.heap s.thread b k (place b) ∨
      (cfg.slotAddr b (headerSize cfg s.heap.mem b) k, headerSize cfg s.heap.mem b) ∈ s.returned ∨
      markBit cfg s.sweptMem b k = true

section Runs

variable {cfg : Config} {n : Nat} {s s' : State n} {place : Nat → Place (Fin n)} {t : Fin n}

theorem Inv.owned (h : Inv cfg s place) : Owned cfg s.heap s.thread place := h.base.owned

theorem Inv.turn (h : Inv cfg s place) {pc : Pc} (hrest : (s.thread t).pc.atRest)
    (hpc : ∀ m, pc = .enter m → InRange m) (hnew : pc.atRest ∨ ∃ m, pc = .enter m) :
    Inv cfg (goto s t pc) place where
  base := h.base.turn hrest hpc hnew
  held := by
    have hat : ∀ m b, ¬ (s.thread t).pc.atBlock m b := by
      intro m b
      cases hl : (s.thread t).pc <;> simp_all [Pc.atRest, Pc.atBlock]
    have hinit : ∀ m b, (s.thread t).pc ≠ .initHeader m b := by
      intro m b
      cases hl : (s.thread t).pc <;> simp_all [Pc.atRest]
    constructor
    · intro b u m hp
      by_cases hu : u = t
      · subst hu
        have hcache := h.held.cached (hat m b) hp
        exact Or.inl (by simpa [goto] using hcache)
      · simpa [goto, hu] using h.held.owned b u m hp
    · intro b u hp
      obtain ⟨m, hm⟩ := h.held.fresh b u hp
      have hu : u ≠ t := by
        rintro rfl
        exact hinit m b hm
      exact ⟨m, by simpa [goto, hu] using hm⟩
  bits := h.bits
  slots := by
    intro b k hb hp hk
    rcases h.slots b k hb hp hk with ha | hrest
    · exact Or.inl (ha.turn hnew)
    · exact Or.inr hrest

theorem answer_finish {h h' : SmallHeap} {l l' : Local} {m b : Nat} (hs : LocalStep cfg h l h' l')
    (hpc : l.pc = .finish m b) : answer l'.pc = [(slider cfg h.mem b, m)] := by
  cases hs with
  | finish hpc' =>
    cases hpc.symm.trans hpc'
    rfl
  | _ hpc' => cases hpc.symm.trans hpc'

theorem Inv.step {l' : Local} {h' : SmallHeap} (h : Inv cfg s place)
    (hs : LocalStep cfg s.heap (s.thread t) h' l') :
    Inv cfg { s with
      heap := h'
      thread := Function.update s.thread t l'
      returned := answer l'.pc ++ s.returned } (placeAfter cfg t s.heap (s.thread t) place) where
  base := ConcurrentAlloc.step_inv h.base hs
  held := hs.held_kept h.owned h.held
  bits := fun b j hj hbit => h.bits b j hj (hs.bits h.owned hj hbit)
  slots := by
    intro b k hb hp hk
    by_cases hbefore : (place b).inUse
    · have hsize : headerSize cfg h'.mem b = headerSize cfg s.heap.mem b := by
        apply hs.header_kept h.owned
        intro hfresh
        rw [hfresh] at hbefore
        exact hbefore
      simp only [hsize] at hk ⊢
      rcases h.slots b k hb hbefore hk with ha | hreturned | hmarked
      · rcases hs.slot_ahead h.owned hk hbefore ha with ha | ⟨m, hpc, hm, hsl⟩ | hbit
        · exact Or.inl ha
        · refine Or.inr (Or.inl (List.mem_append_left _ ?_))
          rw [answer_finish hs hpc, hm, hsl]
          exact List.mem_singleton_self _
        · have hj : k < 8 * bitmapBytesCount := hk.trans (slotCount_lt (one_le_of_lt_slotCount hk))
          exact Or.inr (Or.inr (h.bits b k hj hbit))
      · exact Or.inr (Or.inl (List.mem_append_right _ hreturned))
      · exact Or.inr (Or.inr hmarked)
    · exact Or.inl (hs.new_block h.owned h.held hbefore hp)

/-- A block that `sweep_small_heap` has put in a list has been walked by nobody. -/
theorem aheadOfWalk_swept {m : Mem} {b k : Nat} {heap : SmallHeap} {th : Fin n → Local}
    {p : Place (Fin n)} (hp : p = sweptPlace cfg (Fin n) m b) : AheadOfWalk cfg heap th b k p := by
  rw [sweptPlace] at hp
  split at hp
  · subst hp
    trivial
  · subst hp
    trivial

theorem Inv.collect {place' : Nat → Place (Fin n)} (h : Inv cfg s place) (marks : Mem)
    (hplace : place' = sweptPlace cfg (Fin n) (remark cfg s.heap.mem marks)) :
    Inv cfg {
      heap := sweepSmallHeap cfg (s.heap.setMem (remark cfg s.heap.mem marks))
      thread := fun u => ⟨.idle, clearCache (s.thread u).nodesCache⟩
      returned := []
      sweptMem := remark cfg s.heap.mem marks } place' where
  base := hplace ▸ ConcurrentAlloc.collect_inv h.base marks
  held := by
    constructor
    · intro b u m hp
      rw [hplace, sweptPlace] at hp
      split at hp <;> cases hp
    · intro b u hp
      rw [hplace, sweptPlace] at hp
      split at hp <;> cases hp
  bits := by
    intro b j hj hbit
    rwa [(sweepSmallHeap_swept cfg _).markBit hj] at hbit
  slots := fun b _ _ _ _ => Or.inl (aheadOfWalk_swept (congrFun hplace b))

theorem start_inv (h : Start cfg n s) : ∃ place, Inv cfg s place := by
  obtain ⟨m, hm, rfl⟩ := h
  refine ⟨fun _ => .empty, ?_, ?_, ?_, ?_⟩
  · constructor
    · exact init_owned hm (fun _ => rfl) fun _ _ => rfl
    · intro x hx
      cases hx
    · exact List.Pairwise.nil
  · constructor
    · intro b t m hp
      cases hp
    · intro b t hp
      cases hp
  · exact fun _ _ _ hbit => hbit
  · exact fun _ _ _ hp => hp.elim

theorem inv_step {a : Action n} (h : ∃ place, Inv cfg s place)
    (hs : ConcurrentAlloc.step cfg s a = some s') : ∃ place, Inv cfg s' place := by
  obtain ⟨place, h⟩ := h
  cases step_outcome hs with
  | @call t size hidle hsize =>
    refine ⟨place, h.turn (by rw [hidle]; trivial) ?_ (Or.inr ⟨size, rfl⟩)⟩
    rintro m hm
    cases hm
    exact hsize
  | step hl => exact ⟨_, h.step hl⟩
  | ret hpc =>
    exact ⟨place, h.turn (by rw [hpc]; trivial) (fun _ he => by cases he) (Or.inl trivial)⟩
  | collect hidle => exact ⟨_, h.collect _ rfl⟩

theorem reachable_inv (h : Reachable cfg n s) : ∃ place, Inv cfg s place :=
  h.invariant (fun _ hi => start_inv hi) fun _ _ _ hi _ hs => inv_step hi hs

end Runs

/-- An allocation can still come to slot `k` of block `b`: the block waits in a list, or it is in
the cache or in the hands of a thread whose walk has not passed the slot. -/
inductive Findable (cfg : Config) {n : Nat} (s : State n) (b k : Nat) : Prop where
  | listed (h : OnList s.heap.nextNode (s.heap.segregList (headerSize cfg s.heap.mem b)) b)
  | held (t : Fin n)
      (h : (s.thread t).nodesCache (headerSize cfg s.heap.mem b) = some b ∨
        (s.thread t).pc.atBlock (headerSize cfg s.heap.mem b) b)
      (hslider : slider cfg s.heap.mem b ≤ cfg.slotAddr b (headerSize cfg s.heap.mem b) k)
      (hwalk : ∀ sl c, (s.thread t).pc = .examine (headerSize cfg s.heap.mem b) b sl c →
        sl ≤ cfg.slotAddr b (headerSize cfg s.heap.mem b) k)

/-- The block is empty: it is on the empty list, or a thread has popped it and is about to write its
header. -/
def Unused {n : Nat} (s : State n) (b : Nat) : Prop :=
  OnList s.heap.nextNode s.heap.emptyListHead b ∨ ∃ t m, (s.thread t).pc = .initHeader m b

section Slots

variable {cfg : Config} {n : Nat} {s : State n} {place : Nat → Place (Fin n)} {b k : Nat}

theorem Inv.findable (h : Inv cfg s place) (hb : b < cfg.blocksCount) (hp : (place b).inUse)
    (ha : AheadOfWalk cfg s.heap s.thread b k (place b)) : Findable cfg s b k := by
  have hheader := h.owned.header b hb
  cases hplace : place b with
  | empty | fresh =>
    rw [hplace] at hp
    exact hp.elim
  | segreg m =>
    rw [hplace] at hheader
    have hlt : m < objectSizeUpperBound := by
      have hle := h.owned.sizes b hb
      rw [hheader.1] at hle
      simp only [objectSizeUpperBound]
      omega
    refine .listed ?_
    rw [hheader.1]
    exact (h.owned.segreg m hlt).onList_iff.mpr ⟨hb, hplace⟩
  | owned t m =>
    rw [hplace] at hheader ha
    have hsize : headerSize cfg s.heap.mem b = m := hheader.2.1
    have hat := h.held.owned b t m hplace
    subst hsize
    exact .held t hat ha.1 ha.2
  | abandoned =>
    rw [hplace] at ha
    exact ha.elim

/-- In every state that any number of threads reach, each block is unused, or each of its slots can
still be found, has been returned since the last sweep or was marked then. -/
theorem no_slot_lost (h : Reachable cfg n s) (hb : b < cfg.blocksCount) :
    Unused s b ∨ ∀ k, k < slotCount (headerSize cfg s.heap.mem b) →
      Findable cfg s b k ∨
      (cfg.slotAddr b (headerSize cfg s.heap.mem b) k, headerSize cfg s.heap.mem b) ∈ s.returned ∨
      markBit cfg s.sweptMem b k = true := by
  obtain ⟨place, h⟩ := reachable_inv h
  by_cases hp : (place b).inUse
  · refine Or.inr fun k hk => ?_
    rcases h.slots b k hb hp hk with ha | hrest
    · exact Or.inl (h.findable hb hp ha)
    · exact Or.inr hrest
  · refine Or.inl ?_
    cases hplace : place b with
    | empty => exact Or.inl (h.owned.empty.onList_iff.mpr ⟨hb, hplace⟩)
    | fresh t =>
      obtain ⟨m, hm⟩ := h.held.fresh b t hplace
      exact Or.inr ⟨t, m, hm⟩
    | segreg | owned | abandoned =>
      rw [hplace] at hp
      exact absurd trivial hp

end Slots

/-- After the requests of two threads in turn the first slots of both blocks have been returned. -/
theorem no_slot_lost_in_turn :
    ∃ s : State 2, s.returned = [(4184, 8), (8272, 8), (4176, 8)] ∧
      headerSize twoBlocks s.heap.mem 0 = 8 ∧
      (Unused s 0 ∨ ∀ k, k < slotCount (headerSize twoBlocks s.heap.mem 0) →
        Findable twoBlocks s 0 k ∨
        (twoBlocks.slotAddr 0 (headerSize twoBlocks s.heap.mem 0) k,
          headerSize twoBlocks s.heap.mem 0) ∈ s.returned ∨
        markBit twoBlocks s.sweptMem 0 k = true) := by
  have hstart : Reachable twoBlocks 2 (initial twoBlocks 2 fun _ => 0#8) :=
    .init ⟨_, fun _ _ _ => rfl, rfl⟩
  obtain ⟨s, hr, hreturned, hsize⟩ := hstart.exists_of_run (callsInTurn 0 1)
    (fun s => s.returned = [(4184, 8), (8272, 8), (4176, 8)] ∧
      headerSize twoBlocks s.heap.mem 0 = 8)
    (by decide +kernel)
  exact ⟨s, hreturned, hsize, no_slot_lost hr (by decide)⟩

end NoLostSlots

end GarbageCollector
