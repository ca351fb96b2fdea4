import Mathlib.Data.Finset.Card
import Mathlib.Data.Fintype.Card
import Mathlib.Logic.Function.Basic

/-!
# Synchronisation objects

State of the POSIX objects that a protocol model shares, over any type of parties. A
mutex or spin lock is its owner, a read-write lock its readers and its writer, a barrier
the parties that wait at it. Who runs next is left to the protocol.
-/

namespace Sync

universe u v

variable {P : Type u} [DecidableEq P]

/-- A party that has moved to `x` is not the one at `y`. -/
theorem eq_of_update {A : Type v} {f : P → A} {p q : P} {x y : A}
    (h : Function.update f p x q = y) (hne : x ≠ y) : f q = y := by
  by_cases hq : q = p
  · rw [hq, Function.update_self] at h
    exact absurd h hne
  · rwa [Function.update_of_ne hq] at h

/-- A mutex or a spin lock: the party that holds it. -/
abbrev Mutex (P : Type u) := Option P

/-- The owner of the lock is the one party whose program counter says so. -/
def Mutex.Tracks (l : Mutex P) (holds : P → Bool) : Prop :=
  ∀ p, l = some p ↔ holds p = true

namespace Mutex.Tracks

variable {l : Mutex P} {holds holds' : P → Bool} {p q : P}

omit [DecidableEq P] in
theorem unique (h : l.Tracks holds) (hp : holds p = true) (hq : holds q = true) : p = q :=
  Option.some.inj (((h p).mpr hp).symm.trans ((h q).mpr hq))

omit [DecidableEq P] in
theorem keep (h : l.Tracks holds) (same : ∀ q, holds' q = holds q) : l.Tracks holds' := by
  intro q
  rw [same q]
  exact h q

omit [DecidableEq P] in
theorem none_holds (h : l.Tracks holds) (free : l = none) (p : P) : holds p = false := by
  by_contra hne
  have howner := (h p).mpr (Bool.eq_true_of_not_eq_false hne)
  rw [free] at howner
  cases howner

theorem lock (h : l.Tracks holds) (free : l = none) (mine : holds' p = true)
    (others : ∀ q, q ≠ p → holds' q = holds q) : Mutex.Tracks (some p) holds' := by
  intro q
  by_cases hq : q = p
  · simp [hq, mine]
  · simp [others q hq, h.none_holds free q, Ne.symm hq]

theorem unlock (h : l.Tracks holds) (mine : holds p = true) (gone : holds' p = false)
    (others : ∀ q, q ≠ p → holds' q = holds q) : Mutex.Tracks none holds' := by
  intro q
  by_cases hq : q = p
  · simp [hq, gone]
  · have hnot : holds q ≠ true := fun hold => hq (h.unique hold mine)
    simp [others q hq, hnot]

/-- Party `p` takes the lock and no other program counter matters. -/
theorem lock_of (h : l.Tracks holds) (free : l = none)
    (after : holds' = Function.update holds p true) : Mutex.Tracks (some p) holds' := by
  subst after
  exact h.lock free (Function.update_self p true holds)
    fun q hq => Function.update_of_ne hq true holds

theorem unlock_of (h : l.Tracks holds) (mine : holds p = true)
    (after : holds' = Function.update holds p false) : Mutex.Tracks none holds' := by
  subst after
  exact h.unlock mine (Function.update_self p false holds)
    fun q hq => Function.update_of_ne hq false holds

theorem keep_of {v : Bool} (h : l.Tracks holds) (same : holds p = v)
    (after : holds' = Function.update holds p v) : l.Tracks holds' := by
  rw [after, ← same, Function.update_eq_self]
  exact h

theorem keep_both_of {v w : Bool} (h : l.Tracks holds) (hp : holds p = v) (hq : holds q = w)
    (hne : q ≠ p) (after : holds' = Function.update (Function.update holds p v) q w) :
    l.Tracks holds' :=
  (h.keep_of hp rfl).keep_of (by rw [Function.update_of_ne hne, hq]) after

end Mutex.Tracks

structure RwLock (P : Type u) where
  readers : Finset P
  writer : Option P

namespace RwLock

def free : RwLock P := ⟨∅, none⟩

/-- A read lock is granted when no writer holds the lock. -/
def rdlock (l : RwLock P) (p : P) : Option (RwLock P) :=
  if l.writer = none then some { l with readers := insert p l.readers } else none

/-- A write lock is granted when nobody holds the lock. -/
def wrlock (l : RwLock P) (p : P) : Option (RwLock P) :=
  if l.writer = none ∧ l.readers = ∅ then some { l with writer := some p } else none

def rdunlock (l : RwLock P) (p : P) : RwLock P := { l with readers := l.readers.erase p }

def wrunlock (l : RwLock P) : RwLock P := { l with writer := none }

theorem rdlock_eq_some {l l' : RwLock P} {p : P} :
    l.rdlock p = some l' ↔ l.writer = none ∧ { l with readers := insert p l.readers } = l' := by
  simp [rdlock]

theorem wrlock_eq_some {l l' : RwLock P} {p : P} :
    l.wrlock p = some l' ↔
      (l.writer = none ∧ l.readers = ∅) ∧ { l with writer := some p } = l' := by
  simp [wrlock]

end RwLock

structure Barrier (P : Type u) where
  count : Nat
  waiting : Finset P

namespace Barrier

/-- A party arrives; the last of `count` parties opens the barrier. The second component
is the set of parties that this arrival lets go. -/
def arrive (b : Barrier P) (p : P) : Barrier P × Finset P :=
  if (insert p b.waiting).card = b.count then ({ b with waiting := ∅ }, insert p b.waiting)
  else ({ b with waiting := insert p b.waiting }, ∅)

theorem arrive_cases (b : Barrier P) (p : P) :
    ((insert p b.waiting).card = b.count ∧
      b.arrive p = ({ b with waiting := ∅ }, insert p b.waiting)) ∨
    ((insert p b.waiting).card ≠ b.count ∧
      b.arrive p = ({ b with waiting := insert p b.waiting }, ∅)) := by
  by_cases h : (insert p b.waiting).card = b.count
  · exact Or.inl ⟨h, by simp [arrive, h]⟩
  · exact Or.inr ⟨h, by simp [arrive, h]⟩

/-- The first of two parties waits. -/
theorem arrive_first {b : Barrier P} (size : b.count = 2) (hw : b.waiting = ∅) (p : P) :
    b.arrive p = ({ b with waiting := {p} }, ∅) := by
  simp [arrive, size, hw]

/-- The second of two parties opens the barrier. -/
theorem arrive_second {b : Barrier P} {p q : P} (size : b.count = 2) (hw : b.waiting = {q})
    (hne : p ≠ q) : b.arrive p = ({ b with waiting := ∅ }, {p, q}) := by
  have hcard : ({p, q} : Finset P).card = 2 := Finset.card_pair hne
  simp [arrive, size, hw, hcard]

omit [DecidableEq P] in
/-- At most one party waits. -/
theorem lone_cases {b : Barrier P} (lone : b.waiting.card ≤ 1) :
    b.waiting = ∅ ∨ ∃ p, b.waiting = {p} := by
  rcases Nat.le_one_iff_eq_zero_or_eq_one.mp lone with hzero | hone
  · exact Or.inl (Finset.card_eq_zero.mp hzero)
  · exact Or.inr (Finset.card_eq_one.mp hone)

/-- The parties at the barrier are those whose program counter says so. -/
def Attended (b : Barrier P) (waits : P → Bool) : Prop :=
  ∀ p, p ∈ b.waiting ↔ waits p = true

namespace Attended

variable {b b' : Barrier P} {waits waits' : P → Bool} {p q : P}

omit [DecidableEq P] in
theorem cases (h : b.Attended waits) (lone : b.waiting.card ≤ 1) :
    b.waiting = ∅ ∨ ∃ p, b.waiting = {p} ∧ waits p = true := by
  rcases lone_cases lone with hnone | ⟨p, hp⟩
  · exact Or.inl hnone
  · exact Or.inr ⟨p, hp, (h p).mp (by simp [hp])⟩

omit [DecidableEq P] in
theorem eq_singleton (h : b.Attended waits) (lone : b.waiting.card ≤ 1) (hp : waits p = true) :
    b.waiting = {p} := by
  have hmem := (h p).mpr hp
  rcases lone_cases lone with hnone | ⟨q, hq⟩
  · rw [hnone] at hmem
    cases hmem
  · rw [hq, Finset.mem_singleton] at hmem
    rw [hq, hmem]

theorem keep_of {v : Bool} (h : b.Attended waits) (same : waits p = v)
    (after : waits' = Function.update waits p v) : b.Attended waits' := by
  rw [after, ← same, Function.update_eq_self]
  exact h

theorem arrive_of (h : b.Attended waits) (alone : b.waiting = ∅) (single : b'.waiting = {p})
    (after : waits' = Function.update waits p true) : b'.Attended waits' := by
  intro r
  rw [single, Finset.mem_singleton, after]
  by_cases hr : r = p
  · simp [hr]
  · have hnot : waits r ≠ true := fun hwait => by
      have hmem := (h r).mpr hwait
      rw [alone] at hmem
      cases hmem
    simp [hr, hnot]

/-- Two parties leave, one of which is all that waited. -/
theorem leave_of (h : b.Attended waits) (lone : b.waiting.card ≤ 1) (empty : b'.waiting = ∅)
    (one : waits p = true ∨ waits q = true)
    (after : waits' = Function.update (Function.update waits p false) q false) :
    b'.Attended waits' := by
  intro r
  rw [empty, after]
  by_cases hq : r = q
  · simp [hq]
  by_cases hp : r = p
  · simp [hp, Function.update_apply]
  have hnot : waits r ≠ true := fun hwait => by
    rcases one with hone | hone
    · exact hp (Finset.card_le_one.mp lone r ((h r).mpr hwait) p ((h p).mpr hone))
    · exact hq (Finset.card_le_one.mp lone r ((h r).mpr hwait) q ((h q).mpr hone))
  simp [Function.update_of_ne hq, Function.update_of_ne hp, hnot]

end Attended

/-- A barrier made for all parties opens only when each of them waits or arrives. -/
theorem opens_for_all [Fintype P] {b : Barrier P} {p : P}
    (size : b.count = Fintype.card P) (full : (insert p b.waiting).card = b.count) (q : P) :
    q = p ∨ q ∈ b.waiting := by
  have huniv : insert p b.waiting = Finset.univ :=
    Finset.eq_univ_of_card _ (full.trans size)
  have hq : q ∈ insert p b.waiting := huniv ▸ Finset.mem_univ q
  exact Finset.mem_insert.mp hq

end Barrier

end Sync
