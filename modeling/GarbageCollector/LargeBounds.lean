import GarbageCollector.LargeAllocator

/-!
# The bounds of the large blocks

Whatever the trees look like, no node ever gets a block that leaves the large heap: blocks are
cut, copied, and joined when they touch.
-/

namespace GarbageCollector

/-- The block is empty or lies in the large heap. -/
def Header.Inside (cfg : Config) (b : Header) : Prop :=
  b.size = 0 ∨ cfg.largeStart ≤ b.addr ∧ b.addr + b.size ≤ cfg.largeEnd

def NodesInside (cfg : Config) (nodes : Nodes) : Prop := ∀ i, (nodes i).block.Inside cfg

/-- The nodes have the same blocks. -/
def SameBlocks (nodes nodes' : Nodes) : Prop := ∀ i, (nodes' i).block = (nodes i).block

section Blocks

variable {cfg : Config} {fuel depth n : Nat} {nodes nodes' nodes'' : Nodes} {s s' : LargeAllocator}
  {p q l r t : Option Nat} {a i j node size : Nat} {b : Header} {slot : Slot}

theorem SameBlocks.refl : SameBlocks nodes nodes := fun _ => rfl

theorem SameBlocks.trans (h : SameBlocks nodes nodes') (h' : SameBlocks nodes' nodes'') :
    SameBlocks nodes nodes'' := fun i => (h' i).trans (h i)

theorem SameBlocks.inside (h : SameBlocks nodes nodes') (hin : NodesInside cfg nodes) :
    NodesInside cfg nodes' := by
  intro i
  rw [h i]
  exact hin i

theorem sameBlocks_setLeft (nodes : Nodes) (i : Nat) (p : Option Nat) :
    SameBlocks nodes (setLeft nodes i p) := by
  intro j
  by_cases hj : j = i
  · rw [hj, setLeft, Function.update_self]
  · rw [setLeft, Function.update_of_ne hj]

theorem sameBlocks_setRight (nodes : Nodes) (i : Nat) (p : Option Nat) :
    SameBlocks nodes (setRight nodes i p) := by
  intro j
  by_cases hj : j = i
  · rw [hj, setRight, Function.update_self]
  · rw [setRight, Function.update_of_ne hj]

theorem sameBlocks_detach (nodes : Nodes) (i : Nat) : SameBlocks nodes (detach nodes i) := by
  intro j
  by_cases hj : j = i
  · rw [hj, detach, Function.update_self]
  · rw [detach, Function.update_of_ne hj]

theorem NodesInside.setBlock (hin : NodesInside cfg nodes) (hb : b.Inside cfg) :
    NodesInside cfg (setBlock nodes i b) := by
  intro j
  by_cases hj : j = i
  · rw [hj, GarbageCollector.setBlock, Function.update_self]
    exact hb
  · rw [GarbageCollector.setBlock, Function.update_of_ne hj]
    exact hin j

theorem insertBst_blocks (h : insertBst fuel nodes p node = some (nodes', q)) :
    SameBlocks nodes nodes' := by
  induction fuel generalizing p nodes' q with
  | zero => cases h
  | succ fuel ih =>
    cases p with
    | none =>
      cases h
      exact SameBlocks.refl
    | some root =>
      rw [insertBst] at h
      split at h
      · obtain ⟨⟨nodes₁, q₁⟩, hrec, he⟩ := Option.map_eq_some_iff.mp h
        cases he
        exact (ih hrec).trans (sameBlocks_setLeft _ _ _)
      · obtain ⟨⟨nodes₁, q₁⟩, hrec, he⟩ := Option.map_eq_some_iff.mp h
        cases he
        exact (ih hrec).trans (sameBlocks_setRight _ _ _)

theorem splitTreap_blocks (h : splitTreap fuel nodes p a = some (nodes', l, r)) :
    SameBlocks nodes nodes' := by
  induction fuel generalizing p nodes' l r with
  | zero => cases h
  | succ fuel ih =>
    cases p with
    | none =>
      cases h
      exact SameBlocks.refl
    | some root =>
      rw [splitTreap] at h
      split at h
      · obtain ⟨⟨nodes₁, l₁, r₁⟩, hrec, he⟩ := Option.map_eq_some_iff.mp h
        cases he
        exact (ih hrec).trans (sameBlocks_setLeft _ _ _)
      · obtain ⟨⟨nodes₁, l₁, r₁⟩, hrec, he⟩ := Option.map_eq_some_iff.mp h
        cases he
        exact (ih hrec).trans (sameBlocks_setRight _ _ _)

theorem mergeTreap_blocks (h : mergeTreap fuel nodes l r = some (nodes', q)) :
    SameBlocks nodes nodes' := by
  induction fuel generalizing l r nodes' q with
  | zero => cases h
  | succ fuel ih =>
    cases l with
    | none =>
      cases h
      exact SameBlocks.refl
    | some i =>
      cases r with
      | none =>
        cases h
        exact SameBlocks.refl
      | some j =>
        rw [mergeTreap] at h
        split at h
        · obtain ⟨⟨nodes₁, q₁⟩, hrec, he⟩ := Option.map_eq_some_iff.mp h
          cases he
          exact (ih hrec).trans (sameBlocks_setRight _ _ _)
        · obtain ⟨⟨nodes₁, q₁⟩, hrec, he⟩ := Option.map_eq_some_iff.mp h
          cases he
          exact (ih hrec).trans (sameBlocks_setLeft _ _ _)

theorem removeTreap_blocks (h : removeTreap fuel nodes p a = some (nodes', q, r)) :
    SameBlocks nodes nodes' := by
  induction fuel generalizing p nodes' q r with
  | zero => cases h
  | succ fuel ih =>
    cases p with
    | none =>
      cases h
      exact SameBlocks.refl
    | some root =>
      rw [removeTreap] at h
      split at h
      · obtain ⟨⟨nodes₁, q₁⟩, hmerge, he⟩ := Option.map_eq_some_iff.mp h
        cases he
        exact mergeTreap_blocks hmerge
      · split at h
        · obtain ⟨⟨nodes₁, q₁, r₁⟩, hrec, he⟩ := Option.map_eq_some_iff.mp h
          cases he
          exact (ih hrec).trans (sameBlocks_setLeft _ _ _)
        · obtain ⟨⟨nodes₁, q₁, r₁⟩, hrec, he⟩ := Option.map_eq_some_iff.mp h
          cases he
          exact (ih hrec).trans (sameBlocks_setRight _ _ _)

theorem removeBst_inside (hin : NodesInside cfg nodes)
    (h : removeBst fuel nodes p a = some (nodes', q, r)) : NodesInside cfg nodes' := by
  induction fuel generalizing p nodes nodes' a q r with
  | zero => cases h
  | succ fuel ih =>
    cases p with
    | none =>
      cases h
      exact hin
    | some root =>
      rw [removeBst] at h
      split at h
      · obtain ⟨⟨nodes₁, q₁, r₁⟩, hrec, he⟩ := Option.map_eq_some_iff.mp h
        cases he
        exact (sameBlocks_setLeft _ _ _).inside (ih hin hrec)
      · split at h
        · obtain ⟨⟨nodes₁, q₁, r₁⟩, hrec, he⟩ := Option.map_eq_some_iff.mp h
          cases he
          exact (sameBlocks_setRight _ _ _).inside (ih hin hrec)
        · split at h
          · cases h
            exact (sameBlocks_detach _ _).inside hin
          · cases h
            exact (sameBlocks_detach _ _).inside hin
          · obtain ⟨m, -, h⟩ := Option.bind_eq_some_iff.mp h
            obtain ⟨⟨nodes₁, q₁, r₁⟩, hrec, he⟩ := Option.map_eq_some_iff.mp h
            have hcopy := ih (hin.setBlock (hin m.2)) hrec
            split at he
            · cases he
              exact (sameBlocks_setLeft _ _ _).inside hcopy
            · cases he
              exact (sameBlocks_setRight _ _ _).inside hcopy

theorem freeRemoved_inside (hin : NodesInside cfg s.nodes) (p : Option Nat) :
    NodesInside cfg (freeRemoved s p).nodes := by
  cases p with
  | none => exact hin
  | some i =>
    intro j
    by_cases hj : j = i
    · simp only [hj, freeRemoved, freeTreeNode, Function.update_self]
      exact Or.inl rfl
    · simp only [freeRemoved, freeTreeNode, Function.update_of_ne hj]
      exact hin j

theorem absorb_inside (hin : NodesInside cfg s.nodes) (hb : b.Inside cfg)
    (h : absorb fuel s t node b a = some (s', q)) : NodesInside cfg s'.nodes := by
  obtain ⟨⟨nodes₁, q₁, r₁⟩, hremove, he⟩ := Option.map_eq_some_iff.mp h
  cases he
  exact freeRemoved_inside (s := { s with nodes := nodes₁ })
    (removeBst_inside (hin.setBlock hb) hremove) r₁

/-- Two blocks that touch, as one. -/
theorem inside_join {addr addr' size' : Nat} {flag flag' : Bool}
    (h : Header.Inside cfg ⟨addr, size, flag⟩) (h' : Header.Inside cfg ⟨addr', size', flag'⟩)
    (htouch : addr + size = addr') (flag'' : Bool) :
    Header.Inside cfg ⟨addr, size + size', flag''⟩ := by
  simp only [Header.Inside] at *
  omega

theorem absorbLeft_inside (hin : NodesInside cfg s.nodes)
    (h : absorbLeft fuel s l node = some (s', q)) : NodesInside cfg s'.nodes := by
  obtain ⟨found, -, h⟩ := Option.bind_eq_some_iff.mp h
  cases found with
  | none =>
    cases h
    exact hin
  | some i =>
    simp only at h
    split at h
    · rename_i htouch
      refine absorb_inside hin ?_ h
      rw [Nat.add_comm (s.nodes node).block.size]
      exact inside_join (hin i) (hin node) htouch _
    · cases h
      exact hin

theorem absorbRight_inside (hin : NodesInside cfg s.nodes)
    (h : absorbRight fuel s r node = some (s', q)) : NodesInside cfg s'.nodes := by
  obtain ⟨found, -, h⟩ := Option.bind_eq_some_iff.mp h
  cases found with
  | none =>
    cases h
    exact hin
  | some i =>
    simp only at h
    split at h
    · rename_i htouch
      exact absorb_inside hin (inside_join (hin node) (hin i) htouch _) h
    · cases h
      exact hin

theorem insertTreap_inside (hin : NodesInside cfg s.nodes)
    (h : insertTreap fuel s t p = some (s', q)) : NodesInside cfg s'.nodes := by
  cases p with
  | none =>
    cases h
    exact hin
  | some node =>
    rw [insertTreap] at h
    obtain ⟨⟨nodes₁, l₁, r₁⟩, hsplit, h⟩ := Option.bind_eq_some_iff.mp h
    obtain ⟨⟨s₂, l₂⟩, hleft, h⟩ := Option.bind_eq_some_iff.mp h
    obtain ⟨⟨s₃, r₃⟩, hright, h⟩ := Option.bind_eq_some_iff.mp h
    obtain ⟨⟨nodes₄, t₄⟩, hmerge, h⟩ := Option.bind_eq_some_iff.mp h
    obtain ⟨⟨nodes₅, t₅⟩, hmerge', h⟩ := Option.bind_eq_some_iff.mp h
    cases h
    have h₁ := (splitTreap_blocks hsplit).inside hin
    have h₂ := absorbLeft_inside (s := { s with nodes := nodes₁ }) h₁ hleft
    have h₃ := absorbRight_inside h₂ hright
    exact (mergeTreap_blocks hmerge').inside ((mergeTreap_blocks hmerge).inside h₃)

theorem writeSlot_inside (hin : NodesInside cfg s.nodes) (slot : Slot) (p : Option Nat) :
    NodesInside cfg (writeSlot s slot p).nodes := by
  cases slot with
  | occupiedRoot => exact hin
  | left i => exact (sameBlocks_setLeft _ _ _).inside hin
  | right i => exact (sameBlocks_setRight _ _ _).inside hin

theorem cleanupRoot_inside (hin : NodesInside cfg s.nodes)
    (h : cleanupRoot fuel s slot i = some s') : NodesInside cfg s'.nodes := by
  simp only [cleanupRoot] at h
  split at h
  · cases h
    exact hin.setBlock (hin i)
  · obtain ⟨⟨nodes₁, root₁, removed⟩, hremove, h⟩ := Option.bind_eq_some_iff.mp h
    obtain ⟨⟨s₂, free⟩, hinsert, h⟩ := Option.bind_eq_some_iff.mp h
    cases h
    have h₁ := removeBst_inside hin hremove
    have h₂ : NodesInside cfg s₂.nodes := insertTreap_inside
      (writeSlot_inside (s := { s with nodes := nodes₁ }) h₁ slot root₁) hinsert
    exact h₂

theorem cleanupBst_inside (hin : NodesInside cfg s.nodes)
    (h : cleanupBst fuel depth s slot = some s') : NodesInside cfg s'.nodes := by
  induction depth generalizing s s' slot with
  | zero => cases h
  | succ depth ih =>
    rw [cleanupBst] at h
    split at h
    · cases h
      exact hin
    · obtain ⟨s₁, hleft, h⟩ := Option.bind_eq_some_iff.mp h
      obtain ⟨root₁, -, h⟩ := Option.bind_eq_some_iff.mp h
      obtain ⟨s₂, hright, h⟩ := Option.bind_eq_some_iff.mp h
      obtain ⟨root₂, -, h⟩ := Option.bind_eq_some_iff.mp h
      exact cleanupRoot_inside (ih (ih hin hleft) hright) h

theorem sweepLargeHeap_inside (hin : NodesInside cfg s.nodes)
    (h : sweepLargeHeap fuel s = some s') : NodesInside cfg s'.nodes := by
  rw [sweepLargeHeap] at h
  split at h
  · cases h
    exact hin
  · exact cleanupBst_inside hin h

theorem occupy_inside (hin : NodesInside cfg s.nodes) (hfit : size ≤ (s.nodes node).block.size)
    (h : occupy fuel s node size = some (s', q)) : NodesInside cfg s'.nodes := by
  simp only [occupy] at h
  split at h
  · obtain ⟨⟨nodes₁, q₁⟩, hinsert, h⟩ := Option.bind_eq_some_iff.mp h
    cases h
    exact (insertBst_blocks hinsert).inside hin
  · split at h
    · rename_i s₁ hnew
      obtain ⟨⟨s₂, q₂⟩, hinsert, h⟩ := Option.bind_eq_some_iff.mp h
      cases h
      have hs₁ : s₁ = s := by
        simp only [getNewTreeNode] at hnew
        split at hnew <;> cases hnew
        rfl
      rw [hs₁] at hinsert
      have h₂ : NodesInside cfg s₂.nodes := insertTreap_inside hin hinsert
      exact h₂
    · rename_i newNode s₁ hnew
      obtain ⟨⟨nodes₁, q₁⟩, hinsert, h⟩ := Option.bind_eq_some_iff.mp h
      obtain ⟨⟨s₂, q₂⟩, hinsert', h⟩ := Option.bind_eq_some_iff.mp h
      cases h
      have hs₁ : NodesInside cfg s₁.nodes := by
        simp only [getNewTreeNode] at hnew
        split at hnew <;> cases hnew
        exact (sameBlocks_detach _ _).inside hin
      have hnode := hin node
      have h₁ : NodesInside cfg nodes₁ := by
        refine (insertBst_blocks hinsert).inside ((hs₁.setBlock ?_).setBlock ?_)
        · simp only [Header.Inside] at hnode ⊢
          omega
        · simp only [Header.Inside] at hnode ⊢
          omega
      have h₂ : NodesInside cfg s₂.nodes := insertTreap_inside
        (s := { s₁ with nodes := nodes₁, occupiedRoot := q₁ }) h₁ hinsert'
      exact h₂

/-- The node found is the root, so it is the node removed. -/
theorem removeTreap_fit (hfirst : firstFitSearch nodes p size = some i)
    (hremove : removeTreap fuel nodes p (nodes i).block.addr = some (nodes', q, some node)) :
    node = i ∧ size ≤ (nodes i).block.size := by
  simp only [firstFitSearch] at hfirst
  split at hfirst
  · cases hfirst
  · split at hfirst
    · rename_i hle
      cases hfirst
      cases fuel with
      | zero => cases hremove
      | succ fuel =>
        rw [removeTreap, if_pos rfl] at hremove
        obtain ⟨⟨nodes₁, q₁⟩, -, he⟩ := Option.map_eq_some_iff.mp hremove
        cases he
        exact ⟨rfl, hle⟩
    · cases hfirst

theorem allocateLargeObject_inside (hin : NodesInside cfg s.nodes)
    (h : allocateLargeObject fuel s n = some (s', q)) : NodesInside cfg s'.nodes := by
  simp only [allocateLargeObject] at h
  split at h
  · cases h
    exact hin
  · rename_i i hfirst
    obtain ⟨⟨nodes₁, free, removed⟩, hremove, hocc⟩ := Option.bind_eq_some_iff.mp h
    cases removed with
    | none => cases hocc
    | some node =>
      have hblocks := removeTreap_blocks hremove
      obtain ⟨rfl, hle⟩ := removeTreap_fit hfirst hremove
      refine occupy_inside (s := { s with nodes := nodes₁, freeRoot := free })
        (hblocks.inside hin) ?_ hocc
      rw [hblocks]
      exact hle

theorem occupy_addr (h : occupy fuel s node size = some (s', some a)) :
    a = (s.nodes node).block.addr := by
  simp only [occupy] at h
  split at h
  · obtain ⟨⟨nodes₁, q₁⟩, -, h⟩ := Option.bind_eq_some_iff.mp h
    cases h
    rfl
  · split at h
    · obtain ⟨⟨s₂, q₂⟩, -, h⟩ := Option.bind_eq_some_iff.mp h
      cases h
    · obtain ⟨⟨nodes₁, q₁⟩, -, h⟩ := Option.bind_eq_some_iff.mp h
      obtain ⟨⟨s₂, q₂⟩, -, h⟩ := Option.bind_eq_some_iff.mp h
      cases h
      rfl

/-- The address returned is the start of a block that had room for the object. -/
theorem allocateLargeObject_block (h : allocateLargeObject fuel s n = some (s', some a)) :
    ∃ i, (s.nodes i).block.addr = a ∧ getSizeWithAlignment n ≤ (s.nodes i).block.size := by
  simp only [allocateLargeObject] at h
  split at h
  · cases h
  · rename_i i hfirst
    obtain ⟨⟨nodes₁, free, removed⟩, hremove, hocc⟩ := Option.bind_eq_some_iff.mp h
    cases removed with
    | none => cases hocc
    | some node =>
      have hblocks := removeTreap_blocks hremove
      obtain ⟨rfl, hle⟩ := removeTreap_fit hfirst hremove
      have haddr : a = (nodes₁ node).block.addr := occupy_addr hocc
      rw [hblocks] at haddr
      exact ⟨node, haddr.symm, hle⟩

/-- The object returned lies in the large heap. -/
theorem allocateLargeObject_range (hin : NodesInside cfg s.nodes) (hn : 0 < n)
    (h : allocateLargeObject fuel s n = some (s', some a)) :
    cfg.largeStart ≤ a ∧ a + getSizeWithAlignment n ≤ cfg.largeEnd := by
  obtain ⟨i, rfl, hfit⟩ := allocateLargeObject_block h
  have hup := le_getSizeWithAlignment n
  have hnode := hin i
  simp only [Header.Inside] at hnode
  omega

theorem allocateLargeObject_addr (hin : NodesInside cfg s.nodes) (hn : 0 < n)
    (h : allocateLargeObject fuel s n = some (s', some a)) :
    cfg.largeStart ≤ a ∧ a < cfg.largeEnd := by
  obtain ⟨hlo, hhi⟩ := allocateLargeObject_range hin hn h
  have hup := le_getSizeWithAlignment n
  omega

theorem initLargeAllocator_inside (cfg : Config) :
    NodesInside cfg (initLargeAllocator cfg).nodes := by
  intro i
  simp only [initLargeAllocator, getNewTreeNode]
  by_cases hi : i = 0
  · subst hi
    rw [Function.update_self]
    exact Or.inr ⟨le_rfl, le_rfl⟩
  · rw [Function.update_of_ne hi, detach, Function.update_of_ne hi]
    exact Or.inl rfl

end Blocks

end GarbageCollector
