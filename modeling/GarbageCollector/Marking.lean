import GarbageCollector.Object
import GarbageCollector.Worklist

/-!
# Marking

`marking.c` with the mark stack of `stack.c`. The roots are given as segments of memory, in the
order in which `mark` traverses them. No result means a failed assertion, a pop of an empty
stack, or that `fuel` runs out.
-/

namespace GarbageCollector

open Bytes

/-- `data[top]` is the head of the list. -/
structure Stack where
  data : List Nat
  capacity : Nat

def stackInitCapacity : Nat := 16

def createStack : Stack := ⟨[], stackInitCapacity⟩

def Stack.resize (s : Stack) : Stack := { s with capacity := s.capacity * 2 }

def Stack.push (s : Stack) (value : Nat) : Stack :=
  let s := if s.data.length = s.capacity then s.resize else s
  { s with data := value :: s.data }

def Stack.pop (s : Stack) : Option (Nat × Stack) :=
  match s.data with
  | [] => none
  | value :: data => some (value, { s with data := data })

@[simp] theorem Stack.data_push (s : Stack) (value : Nat) :
    (s.push value).data = value :: s.data := by
  simp only [Stack.push, Stack.resize]
  split <;> rfl

/-- The addresses `start`, `start + 8`, ... below `stop`. -/
def words (start stop : Nat) : List Nat :=
  (List.range ((stop - start + 7) / 8)).map fun i => start + 8 * i

theorem mem_words {start stop w : Nat} :
    w ∈ words start stop ↔ start ≤ w ∧ w < stop ∧ (w - start) % 8 = 0 := by
  simp only [words, List.mem_map, List.mem_range]
  constructor
  · rintro ⟨i, hi, rfl⟩
    omega
  · rintro ⟨hle, hlt, hmod⟩
    exact ⟨(w - start) / 8, by omega, by omega⟩

/-- The heaps and the mark stack. -/
structure Marker where
  heap : Heap
  stack : Stack

section Functions

variable (cfg : Config) (fuel : Nat) (m : Marker)

def markAndPush (object : Nat) : Option Marker :=
  (isMarked cfg fuel m.heap object).bind fun marked =>
    if marked = true then some m
    else (markObject cfg fuel m.heap object).map fun heap => ⟨heap, m.stack.push object⟩

/-- The body of the loops of `scan` and `segment_traverse`. -/
def visitWord (addr : Nat) : Option Marker :=
  (getObject cfg fuel m.heap (load64 m.heap.mem addr)).bind fun
    | none => some m
    | some object => markAndPush cfg fuel m object

def visitWords (m : Marker) (addrs : List Nat) : Option Marker :=
  addrs.foldlM (visitWord cfg fuel) m

def scan (objectAddr : Nat) : Option Marker :=
  (getObject cfg fuel m.heap objectAddr).bind fun
    | none => some m
    | some object =>
      (getObjectSize cfg fuel m.heap object).bind fun size =>
        visitWords cfg fuel m (words object (object + size))

def closure : Nat → Marker → Option Marker
  | 0, _ => none
  | steps + 1, m =>
    match m.stack.pop with
    | none => some m
    | some (curElem, stack) =>
      (scan cfg fuel { m with stack := stack } curElem).bind (closure steps)

def segmentTraverse (m : Marker) (segment : Nat × Nat) : Option Marker :=
  if segment.1 ≠ 0 ∧ segment.2 ≠ 0 ∧ segment.1 < segment.2 then
    (visitWords cfg fuel m (words segment.1 segment.2)).bind (closure cfg fuel fuel)
  else none

/-- The stacks of the threads and the two data segments. -/
def mark (m : Marker) (segments : List (Nat × Nat)) : Option Marker :=
  segments.foldlM (segmentTraverse cfg fuel) m

end Functions

end GarbageCollector
