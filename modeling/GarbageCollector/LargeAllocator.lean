import GarbageCollector.Layout
import Mathlib.Logic.Function.Basic

/-!
# The large allocator

`treap.c`, `binary-search-tree.c` and `large-allocator.c` on a store of tree nodes. A node
pointer is an index into `TREENODES_LIST`. `fuel` bounds the depth of a recursion or loop;
a function that runs out of it has no result.
-/

namespace GarbageCollector

structure Header where
  addr : Nat
  size : Nat
  isMarked : Bool
  deriving DecidableEq, Repr

@[ext] structure TreeNode where
  block : Header
  left : Option Nat
  right : Option Nat
  deriving DecidableEq, Repr

/-- `TREENODES_LIST`. -/
abbrev Nodes := Nat → TreeNode

structure LargeAllocator where
  nodes : Nodes
  treenodeListHead : Option Nat
  freeRoot : Option Nat
  occupiedRoot : Option Nat

def setLeft (nodes : Nodes) (i : Nat) (p : Option Nat) : Nodes :=
  Function.update nodes i { nodes i with left := p }

def setRight (nodes : Nodes) (i : Nat) (p : Option Nat) : Nodes :=
  Function.update nodes i { nodes i with right := p }

def setBlock (nodes : Nodes) (i : Nat) (b : Header) : Nodes :=
  Function.update nodes i { nodes i with block := b }

def detach (nodes : Nodes) (i : Nat) : Nodes :=
  Function.update nodes i { nodes i with left := none, right := none }

def getNewTreeNode (s : LargeAllocator) : Option Nat × LargeAllocator :=
  match s.treenodeListHead with
  | none => (none, s)
  | some result =>
    (some result, { s with
      treenodeListHead := (s.nodes result).right
      nodes := detach s.nodes result })

def freeTreeNode (s : LargeAllocator) (node : Nat) : LargeAllocator :=
  { s with
    nodes := Function.update s.nodes node ⟨⟨0, 0, false⟩, none, s.treenodeListHead⟩
    treenodeListHead := some node }

/-- `__init_large_allocator`; `left` of a spare node is never read. -/
def initLargeAllocator (cfg : Config) : LargeAllocator :=
  let s : LargeAllocator := {
    nodes := fun i =>
      ⟨⟨0, 0, false⟩, none, if i ≠ cfg.treenodeCount - 1 then some (i + 1) else none⟩
    treenodeListHead := some 0
    freeRoot := none
    occupiedRoot := none }
  match getNewTreeNode s with
  | (none, s) => s
  | (some root, s) =>
    { s with
      nodes := Function.update s.nodes root ⟨⟨cfg.largeStart, cfg.heapSize, false⟩, none, none⟩
      freeRoot := some root }

def insertBst : Nat → Nodes → Option Nat → Nat → Option (Nodes × Option Nat)
  | 0, _, _, _ => none
  | _ + 1, nodes, none, node => some (nodes, some node)
  | fuel + 1, nodes, some root, node =>
    if (nodes node).block.addr < (nodes root).block.addr then
      (insertBst fuel nodes (nodes root).left node).map fun p =>
        (setLeft p.1 root p.2, some root)
    else
      (insertBst fuel nodes (nodes root).right node).map fun p =>
        (setRight p.1 root p.2, some root)

def searchBst : Nat → Nodes → Option Nat → Nat → Option (Option Nat)
  | 0, _, _, _ => none
  | _ + 1, _, none, _ => some none
  | fuel + 1, nodes, some root, addr =>
    if addr = (nodes root).block.addr then some (some root)
    else if addr < (nodes root).block.addr then searchBst fuel nodes (nodes root).left addr
    else searchBst fuel nodes (nodes root).right addr

def extSearchBst : Nat → Nodes → Option Nat → Nat → Option (Option Nat)
  | 0, _, _, _ => none
  | _ + 1, _, none, _ => some none
  | fuel + 1, nodes, some root, addr =>
    let block := (nodes root).block
    if block.addr ≤ addr ∧ addr < block.addr + block.size then some (some root)
    else if addr < block.addr then extSearchBst fuel nodes (nodes root).left addr
    else extSearchBst fuel nodes (nodes root).right addr

/-- The loop of `remove_bst` that walks to the successor: its parent and the node itself. -/
def findMinNode : Nat → Nodes → Nat → Nat → Option (Nat × Nat)
  | 0, _, _, _ => none
  | fuel + 1, nodes, parent, node =>
    match (nodes node).left with
    | none => some (parent, node)
    | some left => findMinNode fuel nodes node left

/-- The store, the new root and `*removed`. -/
def removeBst : Nat → Nodes → Option Nat → Nat → Option (Nodes × Option Nat × Option Nat)
  | 0, _, _, _ => none
  | _ + 1, nodes, none, _ => some (nodes, none, none)
  | fuel + 1, nodes, some root, addr =>
    if addr < (nodes root).block.addr then
      (removeBst fuel nodes (nodes root).left addr).map fun p =>
        (setLeft p.1 root p.2.1, some root, p.2.2)
    else if (nodes root).block.addr < addr then
      (removeBst fuel nodes (nodes root).right addr).map fun p =>
        (setRight p.1 root p.2.1, some root, p.2.2)
    else
      match (nodes root).left, (nodes root).right with
      | none, right => some (detach nodes root, right, some root)
      | left, none => some (detach nodes root, left, some root)
      | some _, some right =>
        (findMinNode fuel nodes root right).bind fun q =>
          let nodes := setBlock nodes root (nodes q.2).block
          (removeBst fuel nodes (some q.2) (nodes q.2).block.addr).map fun p =>
            if (nodes q.1).left = some q.2 then (setLeft p.1 q.1 p.2.1, some root, p.2.2)
            else (setRight p.1 q.1 p.2.1, some root, p.2.2)

/-- Only the root is looked at. -/
def firstFitSearch (nodes : Nodes) (root : Option Nat) (size : Nat) : Option Nat :=
  match root with
  | none => none
  | some r => if size ≤ (nodes r).block.size then some r else none

/-- The store, `*l` and `*r`. -/
def splitTreap : Nat → Nodes → Option Nat → Nat → Option (Nodes × Option Nat × Option Nat)
  | 0, _, _, _ => none
  | _ + 1, nodes, none, _ => some (nodes, none, none)
  | fuel + 1, nodes, some t, addr =>
    if addr < (nodes t).block.addr then
      (splitTreap fuel nodes (nodes t).left addr).map fun p =>
        (setLeft p.1 t p.2.2, p.2.1, some t)
    else
      (splitTreap fuel nodes (nodes t).right addr).map fun p =>
        (setRight p.1 t p.2.1, some t, p.2.2)

def mergeTreap : Nat → Nodes → Option Nat → Option Nat → Option (Nodes × Option Nat)
  | 0, _, _, _ => none
  | _ + 1, nodes, none, r => some (nodes, r)
  | _ + 1, nodes, some l, none => some (nodes, some l)
  | fuel + 1, nodes, some l, some r =>
    if (nodes r).block.size < (nodes l).block.size then
      (mergeTreap fuel nodes (nodes l).right (some r)).map fun p =>
        (setRight p.1 l p.2, some l)
    else
      (mergeTreap fuel nodes (some l) (nodes r).left).map fun p =>
        (setLeft p.1 r p.2, some r)

def findRightmost : Nat → Nodes → Option Nat → Option (Option Nat)
  | 0, _, _ => none
  | _ + 1, _, none => some none
  | fuel + 1, nodes, some t =>
    match (nodes t).right with
    | none => some (some t)
    | some right => findRightmost fuel nodes (some right)

def findLeftmost : Nat → Nodes → Option Nat → Option (Option Nat)
  | 0, _, _ => none
  | _ + 1, _, none => some none
  | fuel + 1, nodes, some t =>
    match (nodes t).left with
    | none => some (some t)
    | some left => findLeftmost fuel nodes (some left)

/-- `if (tmp_removed) free_tree_node(tmp_removed)`. -/
def freeRemoved (s : LargeAllocator) : Option Nat → LargeAllocator
  | none => s
  | some node => freeTreeNode s node

/-- A neighbour of `node` is taken into its block, as `merged`, and out of the tree `t`. -/
def absorb (fuel : Nat) (s : LargeAllocator) (t : Option Nat) (node : Nat) (merged : Header)
    (neighborAddr : Nat) : Option (LargeAllocator × Option Nat) :=
  (removeBst fuel (setBlock s.nodes node merged) t neighborAddr).map fun p =>
    (freeRemoved { s with nodes := p.1 } p.2.2, p.2.1)

def absorbLeft (fuel : Nat) (s : LargeAllocator) (l : Option Nat) (node : Nat) :
    Option (LargeAllocator × Option Nat) :=
  (findRightmost fuel s.nodes l).bind fun
    | none => some (s, l)
    | some neighbor =>
      let b := (s.nodes node).block
      let nb := (s.nodes neighbor).block
      if nb.addr + nb.size = b.addr then
        absorb fuel s l node { b with addr := nb.addr, size := b.size + nb.size } nb.addr
      else some (s, l)

def absorbRight (fuel : Nat) (s : LargeAllocator) (r : Option Nat) (node : Nat) :
    Option (LargeAllocator × Option Nat) :=
  (findLeftmost fuel s.nodes r).bind fun
    | none => some (s, r)
    | some neighbor =>
      let b := (s.nodes node).block
      let nb := (s.nodes neighbor).block
      if b.addr + b.size = nb.addr then
        absorb fuel s r node { b with size := b.size + nb.size } nb.addr
      else some (s, r)

def insertTreap (fuel : Nat) (s : LargeAllocator) (root newNode : Option Nat) :
    Option (LargeAllocator × Option Nat) :=
  match newNode with
  | none => some (s, root)
  | some node => do
    let (nodes, l, r) ← splitTreap fuel s.nodes root (s.nodes node).block.addr
    let (s, l) ← absorbLeft fuel { s with nodes := nodes } l node
    let (s, r) ← absorbRight fuel s r node
    let (nodes, t) ← mergeTreap fuel s.nodes l (some node)
    let (nodes, t) ← mergeTreap fuel nodes t r
    some ({ s with nodes := nodes }, t)

/-- The store, the new root and `*removed`, whose child pointers stay as they are. -/
def removeTreap : Nat → Nodes → Option Nat → Nat → Option (Nodes × Option Nat × Option Nat)
  | 0, _, _, _ => none
  | _ + 1, nodes, none, _ => some (nodes, none, none)
  | fuel + 1, nodes, some t, addr =>
    if (nodes t).block.addr = addr then
      (mergeTreap fuel nodes (nodes t).left (nodes t).right).map fun p => (p.1, p.2, some t)
    else if addr < (nodes t).block.addr then
      (removeTreap fuel nodes (nodes t).left addr).map fun p =>
        (setLeft p.1 t p.2.1, some t, p.2.2)
    else
      (removeTreap fuel nodes (nodes t).right addr).map fun p =>
        (setRight p.1 t p.2.1, some t, p.2.2)

/-- A place that holds a node pointer, the parameter of `cleanup_bst`. -/
inductive Slot where
  | occupiedRoot
  | left (i : Nat)
  | right (i : Nat)
  deriving DecidableEq, Repr

def readSlot (s : LargeAllocator) : Slot → Option Nat
  | .occupiedRoot => s.occupiedRoot
  | .left i => (s.nodes i).left
  | .right i => (s.nodes i).right

def writeSlot (s : LargeAllocator) (slot : Slot) (p : Option Nat) : LargeAllocator :=
  match slot with
  | .occupiedRoot => { s with occupiedRoot := p }
  | .left i => { s with nodes := setLeft s.nodes i p }
  | .right i => { s with nodes := setRight s.nodes i p }

/-- The end of `cleanup_bst`, when both subtrees are done. -/
def cleanupRoot (fuel : Nat) (s : LargeAllocator) (slot : Slot) (root : Nat) :
    Option LargeAllocator :=
  let block := (s.nodes root).block
  if block.isMarked = true then
    some { s with nodes := setBlock s.nodes root { block with isMarked := false } }
  else do
    let (nodes, root', removed) ← removeBst fuel s.nodes (some root) block.addr
    let s := writeSlot { s with nodes := nodes } slot root'
    let (s, freeRoot) ← insertTreap fuel s s.freeRoot removed
    some { s with freeRoot := freeRoot }

/-- `fuel` bounds the functions called, `depth` the recursion itself. -/
def cleanupBst (fuel : Nat) : Nat → LargeAllocator → Slot → Option LargeAllocator
  | 0, _, _ => none
  | depth + 1, s, slot =>
    match readSlot s slot with
    | none => some s
    | some root => do
      let s ← cleanupBst fuel depth s (.left root)
      -- `*root` is read again after each call
      let root ← readSlot s slot
      let s ← cleanupBst fuel depth s (.right root)
      let root ← readSlot s slot
      cleanupRoot fuel s slot root

def sweepLargeHeap (fuel : Nat) (s : LargeAllocator) : Option LargeAllocator :=
  match s.occupiedRoot with
  | none => some s
  | some _ => cleanupBst fuel fuel s .occupiedRoot

/-- The rest of `allocate_large_object` once the node is out of the free tree. -/
def occupy (fuel : Nat) (s : LargeAllocator) (node objectSize : Nat) :
    Option (LargeAllocator × Option Nat) :=
  let block := (s.nodes node).block
  if block.size = objectSize then do
    let (nodes, occupied) ← insertBst fuel s.nodes s.occupiedRoot node
    some ({ s with nodes := nodes, occupiedRoot := occupied }, some block.addr)
  else
    match getNewTreeNode s with
    | (none, s) => do
      let (s, free) ← insertTreap fuel s s.freeRoot (some node)
      some ({ s with freeRoot := free }, none)
    | (some newNode, s) => do
      let rest := { (s.nodes newNode).block with
        addr := block.addr + objectSize, size := block.size - objectSize }
      let nodes := setBlock s.nodes newNode rest
      let nodes := setBlock nodes node { block with size := objectSize }
      let (nodes, occupied) ← insertBst fuel nodes s.occupiedRoot node
      let s := { s with nodes := nodes, occupiedRoot := occupied }
      let (s, free) ← insertTreap fuel s s.freeRoot (some newNode)
      some ({ s with freeRoot := free }, some block.addr)

/-- No result also stands for the use of a null `first_fit_node`. -/
def allocateLargeObject (fuel : Nat) (s : LargeAllocator) (objectSize : Nat) :
    Option (LargeAllocator × Option Nat) :=
  let objectSize := getSizeWithAlignment objectSize
  match firstFitSearch s.nodes s.freeRoot objectSize with
  | none => some (s, none)
  | some firstFitNode => do
    let (nodes, free, removed) ←
      removeTreap fuel s.nodes s.freeRoot (s.nodes firstFitNode).block.addr
    match removed with
    | none => none
    | some node => occupy fuel { s with nodes := nodes, freeRoot := free } node objectSize

end GarbageCollector
