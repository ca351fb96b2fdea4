import GarbageCollector.MarksAhead

/-!
# One thread in the small allocator

With one thread a block that is out of every list is in the cache or at hand, and every mark bit
of a whole slot lies in a listed block or ahead of the slider of a cached one. A call that finds
no block has walked through all blocks for its size and zeroed the bitmaps of all listed blocks.
-/

namespace GarbageCollector

open Bytes LinkedList

/-- The call is looking at block `b` for size `n`. -/
def Pc.atBlock (n b : Nat) : Pc → Prop
  | .examine m c _ _ => m = n ∧ c = b
  | .finish m c => m = n ∧ c = b
  | _ => False

/-- The size that a call is about. -/
def Pc.size : Pc → Option Nat
  | .idle => none
  | .enter n | .takeSegreg n | .takeEmpty n | .initHeader n _ | .examine n _ _ _ | .finish n _
  | .fillList n _ | .fillNode n _ _ | .returned n _ => some n

/-- The call has found no block. -/
def Pc.filling : Pc → Prop
  | .fillList _ _ | .fillNode _ _ _ | .returned _ none => True
  | _ => False

/-- The walk through a block has not passed its slot `j`. -/
def Ahead (cfg : Config) (s : SmallHeap) (l : Local) (b j : Nat) : Place (Fin 1) → Prop
  | .owned _ n => slider cfg s.mem b ≤ cfg.slotAddr b n j ∧
      ∀ sl c, l.pc = .examine n b sl c → sl ≤ cfg.slotAddr b n j
  | .abandoned => False
  | _ => True

structure Solo (cfg : Config) (s : SmallHeap) (l : Local) (place : Nat → Place (Fin 1)) :
    Prop where
  owned : Owned cfg s (fun _ => l) place
  held : ∀ b n, place b = .owned 0 n → l.nodesCache n = some b ∨ l.pc.atBlock n b
  bits : ∀ b j, b < cfg.blocksCount → j < 8 * bitmapBytesCount → markBit cfg s.mem b j = true →
    InRange (headerSize cfg s.mem b) ∧ (place b).inUse ∧
      (j < slotCount (headerSize cfg s.mem b) → Ahead cfg s l b j (place b))
  unused : ∀ b, b < cfg.blocksCount → ¬ (place b).inUse → headerSize cfg s.mem b = 0

section Step

variable {cfg : Config} {s s' : SmallHeap} {l l' : Local} {place : Nat → Place (Fin 1)}
  {b n i j k : Nat}

theorem update_solo (l l' : Local) :
    Function.update (fun _ : Fin 1 => l) 0 l' = fun _ => l' := by
  funext t
  rw [Subsingleton.elim t 0, Function.update_self]

theorem LocalStep.size_eq (hs : LocalStep cfg s l s' l') : l'.pc.size = l.pc.size := by
  cases hs with
  | fill hpc =>
    rw [hpc, Local.goto_pc]
    split <;> rfl
  | _ hpc =>
    rw [hpc]
    rfl

theorem LocalStep.filling (hs : LocalStep cfg s l s' l') (h : l.pc.filling) : l'.pc.filling := by
  cases hs with
  | fill hpc =>
    rw [Local.goto_pc]
    split <;> trivial
  | nextList hpc | enterList hpc | fillDone hpc => trivial
  | _ hpc =>
    rw [hpc] at h
    exact h.elim

/-- A cached block stays cached unless the call is about its size. -/
theorem Solo.cached_other (h : Solo cfg s l place) {m c : Nat} (hpc : l.pc.atBlock m c)
    (hp : place b = .owned 0 n) (hne : b ≠ c) : l.nodesCache n = some b ∧ n ≠ m := by
  have hw := h.owned.working 0
  have hcache : l.nodesCache n = some b := by
    refine (h.held b n hp).resolve_right fun hat => hne ?_
    cases hl : l.pc <;> simp only [hl, Pc.atBlock] at hpc hat <;> omega
  refine ⟨hcache, ?_⟩
  rintro rfl
  cases hl : l.pc <;> simp only [hl, Pc.atBlock] at hpc
  · simp only [Working, hl] at hw
    obtain ⟨rfl, rfl⟩ := hpc
    rw [hcache] at hw
    obtain ⟨-, hw, -⟩ := hw
    split at hw
    · exact hne (Option.some.inj hw)
    · cases hw
  · simp only [Working, hl] at hw
    obtain ⟨rfl, rfl⟩ := hpc
    rw [hcache] at hw
    obtain ⟨-, hw, -⟩ := hw
    rcases hw with hw | hw
    · cases hw
    · exact hne (Option.some.inj hw)

theorem Solo.cached (h : Solo cfg s l place) (hat : ¬ l.pc.atBlock n b)
    (hp : place b = .owned 0 n) : l.nodesCache n = some b :=
  (h.held b n hp).resolve_right hat

theorem LocalStep.held (hs : LocalStep cfg s l s' l') (h : Solo cfg s l place)
    (hp : placeAfter cfg 0 s l place b = .owned 0 n) :
    l'.nodesCache n = some b ∨ l'.pc.atBlock n b := by
  cases hs with
  | @popSegreg m c hpc hh =>
    simp only [placeAfter, hpc, hh] at hp
    by_cases hbc : b = c
    · rw [hbc, Function.update_self, Place.owned.injEq] at hp
      exact Or.inr ⟨hp.2, hbc.symm⟩
    · rw [Function.update_of_ne hbc] at hp
      exact Or.inl (h.cached (by simp [hpc, Pc.atBlock]) hp)
  | @popEmpty m c hpc hh =>
    simp only [placeAfter, hpc, hh] at hp
    by_cases hbc : b = c
    · rw [hbc, Function.update_self] at hp
      cases hp
    · rw [Function.update_of_ne hbc] at hp
      exact Or.inl (h.cached (by simp [hpc, Pc.atBlock]) hp)
  | @init m c hpc =>
    simp only [placeAfter, hpc] at hp
    by_cases hbc : b = c
    · rw [hbc, Function.update_self, Place.owned.injEq] at hp
      exact Or.inr ⟨hp.2, hbc.symm⟩
    · rw [Function.update_of_ne hbc] at hp
      exact Or.inl (h.cached (by simp [hpc, Pc.atBlock]) hp)
  | @found m c sl ch hpc hroom hbit | @skip m c sl ch hpc hroom hbit =>
    simp only [placeAfter, hpc, if_pos hroom] at hp
    rcases h.held b n hp with hcache | hat
    · exact Or.inl hcache
    · rw [hpc] at hat
      exact Or.inr hat
  | @exhaustedCache m c sl hpc hroom | @exhausted m c sl hpc hroom =>
    simp only [placeAfter, hpc, if_neg hroom] at hp
    by_cases hbc : b = c
    · rw [hbc, Function.update_self] at hp
      cases hp
    · rw [Function.update_of_ne hbc] at hp
      obtain ⟨hcache, hne⟩ := h.cached_other (m := m) (by rw [hpc]; exact ⟨rfl, rfl⟩) hp hbc
      exact Or.inl (by simp [hcache, hne])
  | @finish m c hpc =>
    have hat : l.pc.atBlock m c := by
      rw [hpc]
      exact ⟨rfl, rfl⟩
    simp only [placeAfter, hpc] at hp
    by_cases hbc : b = c
    · subst hbc
      split at hp
      · rw [Function.update_self] at hp
        cases hp
      · rename_i hroom
        obtain ⟨-, -, -, hplace, -⟩ := h.owned.at 0 hpc
        rw [hplace, Place.owned.injEq] at hp
        obtain ⟨-, rfl⟩ := hp
        exact Or.inl (by simp [hroom])
    · have hp' : place b = .owned 0 n := by
        split at hp
        · rwa [Function.update_of_ne hbc] at hp
        · exact hp
      obtain ⟨hcache, hne⟩ := h.cached_other hat hp' hbc
      exact Or.inl (by simp [hcache, hne])
  | segregEmpty hpc hh | outOfBlocks hpc hh =>
    simp only [placeAfter, hpc, hh] at hp
    exact Or.inl (h.cached (by simp [hpc, Pc.atBlock]) hp)
  | fromCache hpc | noCache hpc | nextList hpc | enterList hpc | fillDone hpc | fill hpc =>
    simp only [placeAfter, hpc] at hp
    exact Or.inl (h.cached (by simp [hpc, Pc.atBlock]) hp)

theorem ahead_iff {p : Place (Fin 1)} :
    Ahead cfg s l b j p ↔ AheadOfWalk cfg s (fun _ => l) b j p := by
  cases p <;> rfl

/-- The walk is not in block `b` after the step. -/
theorem Ahead.keep {p : Place (Fin 1)} (ha : Ahead cfg s l b j p)
    (hsl : slider cfg s'.mem b = slider cfg s.mem b)
    (hpc : ∀ m sl c, l'.pc ≠ .examine m b sl c) : Ahead cfg s' l' b j p := by
  have hkept := (ahead_iff.mp ha).keep (t := 0) hsl hpc
  rw [update_solo] at hkept
  exact ahead_iff.mpr hkept

/-- A mark bit of a whole slot that a step leaves is ahead of the walk through its block. -/
theorem LocalStep.ahead (hs : LocalStep cfg s l s' l') (h : Solo cfg s l place)
    (hlt : j < slotCount (headerSize cfg s.mem b)) (hp : (place b).inUse)
    (ha : Ahead cfg s l b j (place b)) (hbit : markBit cfg s'.mem b j = true) :
    Ahead cfg s' l' b j (placeAfter cfg 0 s l place b) := by
  have hstep : LocalStep cfg s ((fun _ : Fin 1 => l) 0) s' l' := hs
  have hahead := hstep.aheadOfWalk (t := 0) h.owned hlt hp (ahead_iff.mp ha) hbit
  rw [update_solo] at hahead
  exact ahead_iff.mpr hahead

/-- A block gets a size when it comes into use. -/
theorem LocalStep.unused (hs : LocalStep cfg s l s' l') (h : Solo cfg s l place)
    (hb : b < cfg.blocksCount) (hp : ¬ (placeAfter cfg 0 s l place b).inUse) :
    headerSize cfg s'.mem b = 0 := by
  have hstep : LocalStep cfg s ((fun _ : Fin 1 => l) 0) s' l' := hs
  rcases hstep.header_cases (t := 0) h.owned b with hsame | ⟨m, hpc⟩
  · rw [hsame]
    exact h.unused b hb fun huse => hp ((hstep.moved h.owned).in_use h.owned huse)
  · have hpc' : l.pc = .initHeader m b := hpc
    simp only [placeAfter, hpc', Function.update_self] at hp
    exact absurd trivial hp

theorem LocalStep.solo (hs : LocalStep cfg s l s' l') (h : Solo cfg s l place) :
    Solo cfg s' l' (placeAfter cfg 0 s l place) where
  owned := by
    have hstep : LocalStep cfg s ((fun _ : Fin 1 => l) 0) s' l' := hs
    have howned : Owned cfg s' (Function.update (fun _ : Fin 1 => l) 0 l')
      (placeAfter cfg 0 s l place) := hstep.owned h.owned
    rwa [update_solo] at howned
  held := fun b n hp => hs.held h hp
  bits := by
    have hstep : LocalStep cfg s ((fun _ : Fin 1 => l) 0) s' l' := hs
    intro b j hb hj hbit
    obtain ⟨hrange, huse, hahead⟩ := h.bits b j hb hj (hstep.bits (t := 0) h.owned hj hbit)
    have hfresh : place b ≠ .fresh 0 := fun hf => by
      rw [hf] at huse
      exact huse
    rw [hstep.header_kept (t := 0) h.owned hfresh]
    refine ⟨hrange, (hstep.moved h.owned).in_use h.owned huse, fun hlt => ?_⟩
    exact hs.ahead h hlt huse (hahead hlt) hbit
  unused := fun _ hb hp => hs.unused h hb hp

/-- Between calls only the program counter changes. -/
theorem Solo.turn (h : Solo cfg s l place) {p : Pc} (hrest : l.pc.atRest)
    (hpc : ∀ n, p = .enter n → InRange n) (hnew : p.atRest ∨ ∃ n, p = .enter n) :
    Solo cfg s (l.goto p) place where
  owned := by
    have howned : Owned cfg s (Function.update (fun _ : Fin 1 => l) 0 (l.goto p)) place :=
      h.owned.turn hpc hnew
    rwa [update_solo] at howned
  held := by
    intro b n hp
    refine Or.inl (h.cached (fun hat => ?_) hp)
    cases hl : l.pc <;> simp_all [Pc.atRest, Pc.atBlock]
  bits := by
    intro b j hb hj hbit
    obtain ⟨hrange, huse, hahead⟩ := h.bits b j hb hj hbit
    refine ⟨hrange, huse, fun hlt => ?_⟩
    have hturned := (ahead_iff.mp (hahead hlt)).turn (t := 0) hnew
    rw [update_solo] at hturned
    exact ahead_iff.mpr hturned
  unused := h.unused

theorem Solo.idle {pc : Pc} {cache : NodesCache} (h : Solo cfg s ⟨pc, cache⟩ place)
    (hrest : pc.atRest) : Solo cfg s ⟨.idle, cache⟩ place :=
  h.turn (p := .idle) hrest nofun (Or.inl trivial)

/-- No block is left for size `n`. -/
def NoBlocks (s : SmallHeap) (l : Local) (n : Nat) : Prop :=
  s.segregList n = none ∧ l.nodesCache n = none

/-- How far a call that finds no block has come in zeroing the bitmaps. -/
def Filled (cfg : Config) (s : SmallHeap) (l : Local) (place : Nat → Place (Fin 1)) : Prop :=
  match l.pc with
  | .takeEmpty n => s.segregList n = none
  | .fillList n i => NoBlocks s l n ∧ 1 ≤ i ∧
      ∀ b m, b < cfg.blocksCount → 1 ≤ m → m < i → place b = .segreg m → NoMarks cfg s.mem b
  | .fillNode n i b => NoBlocks s l n ∧ InRange i ∧ place b = .segreg i ∧
      (∀ c m, c < cfg.blocksCount → 1 ≤ m → m < i → place c = .segreg m → NoMarks cfg s.mem c) ∧
      ∀ c, c < cfg.blocksCount → place c = .segreg i →
        OnList s.nextNode (some b) c ∨ NoMarks cfg s.mem c
  | .returned n none => NoBlocks s l n ∧
      ∀ b m, b < cfg.blocksCount → InRange m → place b = .segreg m → NoMarks cfg s.mem b
  | _ => True

theorem not_onList_none {next : Nat → Option Nat} {a : Nat} : ¬ OnList next none a := by
  rintro ⟨l, hl, ha⟩
  cases l with
  | nil => cases ha
  | cons c l => cases hl.1

theorem onList_cons {next : Nat → Option Nat} {a c : Nat} (h : OnList next (some a) c) :
    c = a ∨ OnList next (next a) c := by
  obtain ⟨l, hl, hc⟩ := h
  cases l with
  | nil => cases hc
  | cons d l =>
    obtain ⟨hd, hrest⟩ := hl
    cases hd
    rcases List.mem_cons.mp hc with rfl | hc
    · exact Or.inl rfl
    · exact Or.inr ⟨l, hrest, hc⟩

theorem noMarks_zeroBitmap (m : Mem) (b : Nat) :
    NoMarks cfg (zeroBitmap m (cfg.blockAddr b)) b := by
  intro j hj
  rw [markBit_zeroBitmap hj, if_pos rfl]

theorem NoMarks.zeroBitmap {m : Mem} {c : Nat} (h : NoMarks cfg m c) :
    NoMarks cfg (zeroBitmap m (cfg.blockAddr b)) c := by
  intro j hj
  rw [markBit_zeroBitmap hj]
  split
  · rfl
  · exact h j hj

theorem LocalStep.filled (hs : LocalStep cfg s l s' l') (h : Solo cfg s l place)
    (hf : Filled cfg s l place) : Filled cfg s' l' (placeAfter cfg 0 s l place) := by
  cases hs with
  | segregEmpty hpc hh => exact hh
  | outOfBlocks hpc hh =>
    simp only [Filled, hpc] at hf
    obtain ⟨-, hcache⟩ := h.owned.at 0 hpc
    exact ⟨⟨hf, hcache⟩, le_rfl, fun b m _ h₁ h₂ => by omega⟩
  | @nextList n i hpc hi hh =>
    simp only [Filled, hpc] at hf
    obtain ⟨hnone, hlow, hall⟩ := hf
    simp only [Filled, placeAfter, hpc, Local.goto_pc]
    refine ⟨hnone, by omega, fun b m hb h₁ h₂ hp => ?_⟩
    by_cases hmi : m = i
    · subst hmi
      have hon := (h.owned.segreg m hi).onList_iff.mpr ⟨hb, hp⟩
      rw [hh] at hon
      exact absurd hon not_onList_none
    · exact hall b m hb h₁ (by omega) hp
  | @enterList n i b hpc hi hh =>
    simp only [Filled, hpc] at hf
    obtain ⟨hnone, hlow, hall⟩ := hf
    obtain ⟨-, hplace⟩ := (hh ▸ h.owned.segreg i hi).head_mem
    simp only [Filled, placeAfter, hpc, Local.goto_pc]
    refine ⟨hnone, ⟨hlow, ?_⟩, hplace, hall, fun c hc hp => Or.inl ?_⟩
    · simp only [objectSizeUpperBound] at hi
      omega
    · have hon := (h.owned.segreg i hi).onList_iff.mpr ⟨hc, hp⟩
      rwa [hh] at hon
  | @fillDone n i hpc hi =>
    simp only [Filled, hpc] at hf
    obtain ⟨hnone, hlow, hall⟩ := hf
    simp only [Filled, placeAfter, hpc, Local.goto_pc]
    refine ⟨hnone, fun b m hb hm hp => hall b m hb hm.1 ?_ hp⟩
    have hlt := hm.lt
    omega
  | @fill n i b hpc =>
    simp only [Filled, hpc] at hf
    obtain ⟨hnone, hi, hplace, hlow, hlist⟩ := hf
    have hb : b < cfg.blocksCount := h.owned.at 0 hpc
    -- what is left of the list behind `b`
    have hrest : ∀ c, c < cfg.blocksCount → place c = .segreg i →
        OnList s.nextNode (s.nextNode b) c ∨
          NoMarks cfg (zeroBitmap s.mem (cfg.blockAddr b)) c := by
      intro c hc hp
      rcases hlist c hc hp with hon | hclear
      · rcases onList_cons hon with rfl | hon
        · exact Or.inr (noMarks_zeroBitmap _ _)
        · exact Or.inl hon
      · exact Or.inr hclear.zeroBitmap
    cases hnext : s.nextNode b with
    | none =>
      simp only [Filled, placeAfter, hpc, Local.goto_pc]
      refine ⟨hnone, by omega, fun c m hc h₁ h₂ hp => ?_⟩
      by_cases hmi : m = i
      · subst hmi
        rcases hrest c hc hp with hon | hclear
        · rw [hnext] at hon
          exact absurd hon not_onList_none
        · exact hclear
      · exact (hlow c m hc h₁ (by omega) hp).zeroBitmap
    | some d =>
      have hd := (h.owned.segreg i hi.lt).next_mem ⟨hb, hplace⟩ hnext
      simp only [Filled, placeAfter, hpc, Local.goto_pc]
      refine ⟨hnone, hi, hd.2, fun c m hc h₁ h₂ hp => (hlow c m hc h₁ h₂ hp).zeroBitmap, ?_⟩
      rw [← hnext]
      exact hrest
  | _ => trivial

/-- A block listed under another size than the call's stays listed. -/
theorem LocalStep.listed (hs : LocalStep cfg s l s' l') (h : Solo cfg s l place) {m : Nat}
    (hsize : l.pc.size = some n) (hp : place b = .segreg m) (hne : m ≠ n) :
    placeAfter cfg 0 s l place b = .segreg m := by
  have hother : ∀ {c : Nat} {q : Place (Fin 1)}, place c ≠ .segreg m →
      Function.update place c q b = .segreg m := by
    intro c q hc
    rw [Function.update_of_ne, hp]
    rintro rfl
    exact hc hp
  cases hs with
  | @popSegreg k c hpc hh =>
    obtain ⟨hk, -⟩ := h.owned.at 0 hpc
    have hplace := (hh ▸ h.owned.segreg k hk.lt).head_mem.2
    simp only [hpc, Pc.size, Option.some.injEq] at hsize
    simp only [placeAfter, hpc, hh]
    refine hother ?_
    rw [hplace, ne_eq, Place.segreg.injEq]
    omega
  | popEmpty hpc hh =>
    have hplace := (hh ▸ h.owned.empty).head_mem.2
    simp only [placeAfter, hpc, hh]
    exact hother (by simp [hplace])
  | init hpc =>
    obtain ⟨-, -, -, hplace⟩ := h.owned.at 0 hpc
    simp only [placeAfter, hpc]
    exact hother (by simp [hplace])
  | exhaustedCache hpc hroom | exhausted hpc hroom =>
    obtain ⟨-, -, -, hplace, -⟩ := h.owned.at 0 hpc
    simp only [placeAfter, hpc, if_neg hroom]
    exact hother (by simp [hplace])
  | finish hpc =>
    obtain ⟨-, -, -, hplace, -⟩ := h.owned.at 0 hpc
    simp only [placeAfter, hpc]
    split
    · exact hother (by simp [hplace])
    · exact hp
  | found hpc hroom hbit | skip hpc hroom hbit =>
    simp only [placeAfter, hpc, if_pos hroom, hp]
  | segregEmpty hpc hh | outOfBlocks hpc hh =>
    simp only [placeAfter, hpc, hh, hp]
  | fromCache hpc | noCache hpc | nextList hpc | enterList hpc | fillDone hpc | fill hpc =>
    simp only [placeAfter, hpc, hp]

/-- A call for size `n` that started in heap `s₀` with the blocks at `place₀`. -/
structure Attempt (cfg : Config) (n : Nat) (s₀ : SmallHeap) (place₀ : Nat → Place (Fin 1))
    (s : SmallHeap) (l : Local) (place : Nat → Place (Fin 1)) : Prop where
  solo : Solo cfg s l place
  size : l.pc.size = some n
  filled : Filled cfg s l place
  bits : ∀ b j, j < 8 * bitmapBytesCount → markBit cfg s.mem b j = true →
    markBit cfg s₀.mem b j = true
  listed : ∀ b m, place₀ b = .segreg m → m ≠ n → place b = .segreg m
  used : ∀ b, (place₀ b).inUse →
    (place b).inUse ∧ headerSize cfg s.mem b = headerSize cfg s₀.mem b

variable {s₀ : SmallHeap} {place₀ : Nat → Place (Fin 1)} {cache cache' : NodesCache}

theorem Attempt.step (h : Attempt cfg n s₀ place₀ s l place) (hs : LocalStep cfg s l s' l') :
    Attempt cfg n s₀ place₀ s' l' (placeAfter cfg 0 s l place) where
  solo := hs.solo h.solo
  size := hs.size_eq.trans h.size
  filled := hs.filled h.solo h.filled
  bits := by
    have hstep : LocalStep cfg s ((fun _ : Fin 1 => l) 0) s' l' := hs
    exact fun b j hj hbit => h.bits b j hj (hstep.bits (t := 0) h.solo.owned hj hbit)
  listed := fun b m hp hne => hs.listed h.solo h.size (h.listed b m hp hne) hne
  used := by
    have hstep : LocalStep cfg s ((fun _ : Fin 1 => l) 0) s' l' := hs
    intro b hb
    obtain ⟨huse, hsize⟩ := h.used b hb
    refine ⟨(hstep.moved h.solo.owned).in_use h.solo.owned huse, ?_⟩
    refine (hstep.header_kept (t := 0) h.solo.owned fun hf => ?_).trans hsize
    rw [hf] at huse
    exact huse

/-- The rule for a call: what its steps preserve holds when it returns. -/
theorem attempt_run {Q : SmallHeap → Local → (Nat → Place (Fin 1)) → Prop} {fuel : Nat}
    {res : Option Nat} (h : Solo cfg s₀ ⟨.idle, cache⟩ place₀) (hn : InRange n)
    (start : Q s₀ ⟨.enter n, cache⟩ place₀)
    (preserve : ∀ s l s' l' place, Attempt cfg n s₀ place₀ s l place → Q s l place →
      LocalStep cfg s l s' l' → Q s' l' (placeAfter cfg 0 s l place))
    (hrun : allocateSmallObject cfg fuel s₀ cache n = some (s', cache', res)) :
    ∃ place, Attempt cfg n s₀ place₀ s' ⟨.returned n res, cache'⟩ place ∧
      Q s' ⟨.returned n res, cache'⟩ place := by
  obtain ⟨⟨s₁, l₁, res₁⟩, hlocal, he⟩ := Option.map_eq_some_iff.mp hrun
  cases he
  have hstart : Attempt cfg n s₀ place₀ s₀ ⟨.enter n, cache⟩ place₀ := by
    refine ⟨h.turn (p := .enter n) trivial ?_ (Or.inr ⟨n, rfl⟩), rfl, trivial,
      fun _ _ _ hbit => hbit, fun _ _ hp _ => hp, fun _ hb => ⟨hb, rfl⟩⟩
    rintro m hm
    cases hm
    exact hn
  obtain ⟨⟨place, ha, hq⟩, m, hpc⟩ := localRun_invariant
    (P := fun s l => ∃ place, Attempt cfg n s₀ place₀ s l place ∧ Q s l place)
    (fun s l s' l' hp hs => by
      obtain ⟨place, ha, hq⟩ := hp
      exact ⟨_, ha.step hs, preserve s l s' l' place ha hq hs⟩)
    ⟨place₀, hstart, start⟩ hlocal
  obtain ⟨pc, cache₁⟩ := l₁
  obtain rfl : pc = .returned m _ := hpc
  obtain rfl : m = n := Option.some.inj ha.size
  exact ⟨place, ha, hq⟩

end Step

end GarbageCollector
