import Mathlib.Data.List.Perm.Basic
import Mathlib.Data.List.Sort
import Mathlib.Order.Defs.LinearOrder
import Mathlib.Tactic.Tauto

/-!
# Binary trees with identified nodes

Search trees and treaps as inductive trees. A node has an identity and a content: deletion
of a node with two children moves a content to another identity, as an imperative
implementation does. The key is read off the content, and so is the priority.
-/

namespace BinaryTree

universe u v w

inductive NodeTree (V : Type u) where
  | nil
  | node (l : NodeTree V) (v : V) (r : NodeTree V)

namespace NodeTree

variable {V : Type u} {K : Type v} {P : Type w} [LinearOrder K] [LinearOrder P]

def inorder : NodeTree V → List V
  | nil => []
  | node l v r => l.inorder ++ v :: r.inorder

def size : NodeTree V → Nat
  | nil => 0
  | node l _ r => l.size + r.size + 1

def leaf (v : V) : NodeTree V := node nil v nil

def map (f : V → V) : NodeTree V → NodeTree V
  | nil => nil
  | node l v r => node (l.map f) (f v) (r.map f)

def leftmost : NodeTree V → Option V
  | nil => none
  | node l v _ => l.leftmost.or (some v)

def rightmost : NodeTree V → Option V
  | nil => none
  | node _ v r => r.rightmost.or (some v)

/-- The nodes with keys up to `k` and the nodes with keys above. -/
def split (key : V → K) (k : K) : NodeTree V → NodeTree V × NodeTree V
  | nil => (nil, nil)
  | node l v r =>
    if k < key v then ((l.split key k).1, node (l.split key k).2 v r)
    else (node l v (r.split key k).1, (r.split key k).2)

/-- The root of higher priority becomes the root; the right one wins a tie. -/
def merge (prio : V → P) : NodeTree V → NodeTree V → NodeTree V
  | nil, t => t
  | t, nil => t
  | node l v r, node l' v' r' =>
    if prio v' < prio v then node l v (merge prio r (node l' v' r'))
    else node (merge prio (node l v r) l') v' r'
termination_by t t' => t.size + t'.size
decreasing_by all_goals simp only [size]; omega

/-- Insertion as a leaf. -/
def insert (key : V → K) (x : V) : NodeTree V → NodeTree V
  | nil => leaf x
  | node l v r => if key x < key v then node (l.insert key x) v r else node l v (r.insert key x)

def removeMin : NodeTree V → NodeTree V
  | nil => nil
  | node l v r =>
    match l with
    | nil => r
    | node .. => node l.removeMin v r

def search (key : V → K) (k : K) : NodeTree V → Option V
  | nil => none
  | node l v r => if k = key v then some v else if k < key v then l.search key k else r.search key k

/-- Every node has at least the priority of the nodes below it. -/
def MaxHeap (prio : V → P) : NodeTree V → Prop
  | nil => True
  | node l v r =>
    (∀ w, w ∈ l.inorder → prio w ≤ prio v) ∧ (∀ w, w ∈ r.inorder → prio w ≤ prio v) ∧
      l.MaxHeap prio ∧ r.MaxHeap prio

def SearchTree (key : V → K) (t : NodeTree V) : Prop :=
  t.inorder.Pairwise fun v w => key v < key w

@[simp] theorem inorder_nil : (nil : NodeTree V).inorder = [] := rfl

@[simp] theorem inorder_node (l r : NodeTree V) (v : V) :
    (node l v r).inorder = l.inorder ++ v :: r.inorder := rfl

@[simp] theorem inorder_leaf (v : V) : (leaf v).inorder = [v] := rfl

@[simp] theorem inorder_map (f : V → V) (t : NodeTree V) : (t.map f).inorder = t.inorder.map f := by
  induction t with
  | nil => rfl
  | node l v r ihl ihr => simp [map, ihl, ihr]

theorem length_inorder (t : NodeTree V) : t.inorder.length = t.size := by
  induction t with
  | nil => rfl
  | node l v r ihl ihr =>
    simp [size, ihl, ihr]
    omega

theorem inorder_eq_nil {t : NodeTree V} : t.inorder = [] ↔ t = nil := by
  cases t <;> simp

theorem leftmost_eq_head (t : NodeTree V) : t.leftmost = t.inorder.head? := by
  induction t with
  | nil => rfl
  | node l v r ihl _ => simp [leftmost, ihl, List.head?_append]

theorem rightmost_eq_last (t : NodeTree V) : t.rightmost = t.inorder.getLast? := by
  induction t with
  | nil => rfl
  | node l v r _ ihr =>
    rw [rightmost, ihr, inorder_node, List.getLast?_append, List.getLast?_cons]
    cases r.inorder.getLast? <;> simp

theorem inorder_removeMin (t : NodeTree V) : t.removeMin.inorder = t.inorder.tail := by
  induction t with
  | nil => rfl
  | node l v r ihl _ =>
    cases l with
    | nil => rfl
    | node ll lv lr =>
      have hne : (node ll lv lr).inorder ≠ [] := by simp
      rw [removeMin, inorder_node, ihl, inorder_node (node ll lv lr),
        List.tail_append_of_ne_nil hne]

section Equations

variable (key : V → K) (prio : V → P) {l r l' r' : NodeTree V} {v v' x : V} {k : K}

theorem split_of_lt (h : k < key v) :
    (node l v r).split key k = ((l.split key k).1, node (l.split key k).2 v r) :=
  if_pos h

theorem split_of_not_lt (h : ¬ k < key v) :
    (node l v r).split key k = (node l v (r.split key k).1, (r.split key k).2) :=
  if_neg h

theorem merge_nil (t : NodeTree V) : merge prio t nil = t := by
  cases t <;> simp [merge]

theorem merge_of_lt (h : prio v' < prio v) :
    merge prio (node l v r) (node l' v' r') = node l v (merge prio r (node l' v' r')) := by
  rw [merge, if_pos h]

theorem merge_of_not_lt (h : ¬ prio v' < prio v) :
    merge prio (node l v r) (node l' v' r') = node (merge prio (node l v r) l') v' r' := by
  rw [merge, if_neg h]

theorem insert_of_lt (h : key x < key v) :
    (node l v r).insert key x = node (l.insert key x) v r :=
  if_pos h

theorem insert_of_not_lt (h : ¬ key x < key v) :
    (node l v r).insert key x = node l v (r.insert key x) :=
  if_neg h

theorem search_of_eq (h : k = key v) : (node l v r).search key k = some v := if_pos h

theorem search_of_lt (h : k < key v) : (node l v r).search key k = l.search key k := by
  rw [search, if_neg h.ne, if_pos h]

theorem search_of_gt (h : key v < k) : (node l v r).search key k = r.search key k := by
  rw [search, if_neg h.ne', if_neg h.asymm]

end Equations

section Structure

variable (key : V → K) (prio : V → P)

theorem inorder_split (k : K) (t : NodeTree V) :
    (t.split key k).1.inorder ++ (t.split key k).2.inorder = t.inorder := by
  induction t with
  | nil => rfl
  | node l v r ihl ihr =>
    rw [split]
    split
    · rw [inorder_node, inorder_node, ← ihl, List.append_assoc]
    · rw [inorder_node, inorder_node, ← ihr]
      simp

theorem inorder_merge (t t' : NodeTree V) :
    (merge prio t t').inorder = t.inorder ++ t'.inorder := by
  induction t, t' using merge.induct prio with
  | case1 t => simp [merge]
  | case2 t _ => cases t <;> simp [merge]
  | case3 l v r l' v' r' h ih => simp [merge, h, ih]
  | case4 l v r l' v' r' h ih => simp [merge, h, ih]

theorem inorder_insert_perm (x : V) (t : NodeTree V) :
    (t.insert key x).inorder.Perm (x :: t.inorder) := by
  induction t with
  | nil => exact List.Perm.refl _
  | node l v r ihl ihr =>
    rw [insert]
    split
    · exact (ihl.append_right _)
    · rw [inorder_node, inorder_node]
      have htail : (v :: (r.insert key x).inorder).Perm (x :: v :: r.inorder) :=
        (ihr.cons v).trans (List.Perm.swap x v _)
      exact (htail.append_left l.inorder).trans List.perm_middle

theorem mem_insert (x w : V) (t : NodeTree V) :
    w ∈ (t.insert key x).inorder ↔ w = x ∨ w ∈ t.inorder :=
  (inorder_insert_perm key x t).mem_iff.trans List.mem_cons

end Structure

section Order

variable {key : V → K} {prio : V → P} {l r t t' : NodeTree V} {v x : V} {k : K}

theorem searchTree_node :
    SearchTree key (node l v r) ↔
      SearchTree key l ∧ SearchTree key r ∧ (∀ w, w ∈ l.inorder → key w < key v) ∧
        ∀ w, w ∈ r.inorder → key v < key w := by
  simp only [SearchTree, inorder_node, List.pairwise_append, List.pairwise_cons, List.mem_cons]
  constructor
  · rintro ⟨hl, ⟨hv, hr⟩, hlr⟩
    exact ⟨hl, hr, fun w hw => hlr w hw v (Or.inl rfl), hv⟩
  · rintro ⟨hl, hr, hlv, hv⟩
    refine ⟨hl, ⟨hv, hr⟩, ?_⟩
    rintro a ha b (rfl | hb)
    · exact hlv a ha
    · exact (hlv a ha).trans (hv b hb)

theorem SearchTree.of_inorder_sublist (h : SearchTree key t)
    (hsub : t'.inorder.Sublist t.inorder) : SearchTree key t' :=
  List.Pairwise.sublist hsub h

theorem split_fst_le (h : SearchTree key t) : ∀ w, w ∈ (t.split key k).1.inorder → key w ≤ k := by
  induction t with
  | nil => simp [split]
  | node l v r ihl ihr =>
    obtain ⟨hl, hr, hlv, hvr⟩ := searchTree_node.mp h
    rw [split]
    split
    · exact ihl hl
    · rename_i hk
      intro w hw
      simp only [inorder_node, List.mem_append, List.mem_cons] at hw
      rcases hw with hw | rfl | hw
      · exact (hlv w hw).le.trans (not_lt.mp hk)
      · exact not_lt.mp hk
      · exact ihr hr w hw

theorem lt_split_snd (h : SearchTree key t) : ∀ w, w ∈ (t.split key k).2.inorder → k < key w := by
  induction t with
  | nil => simp [split]
  | node l v r ihl ihr =>
    obtain ⟨hl, hr, hlv, hvr⟩ := searchTree_node.mp h
    rw [split]
    split
    · rename_i hk
      intro w hw
      simp only [inorder_node, List.mem_append, List.mem_cons] at hw
      rcases hw with hw | rfl | hw
      · exact ihl hl w hw
      · exact hk
      · exact hk.trans (hvr w hw)
    · exact ihr hr

theorem mem_of_mem_split_fst {w : V} (h : w ∈ (t.split key k).1.inorder) : w ∈ t.inorder := by
  rw [← inorder_split key k t]
  exact List.mem_append_left _ h

theorem mem_of_mem_split_snd {w : V} (h : w ∈ (t.split key k).2.inorder) : w ∈ t.inorder := by
  rw [← inorder_split key k t]
  exact List.mem_append_right _ h

theorem MaxHeap.split (key : V → K) (k : K) (h : MaxHeap prio t) :
    MaxHeap prio (t.split key k).1 ∧ MaxHeap prio (t.split key k).2 := by
  induction t with
  | nil => exact ⟨trivial, trivial⟩
  | node l v r ihl ihr =>
    obtain ⟨hlv, hrv, hl, hr⟩ := h
    rw [NodeTree.split]
    split
    · exact ⟨(ihl hl).1, fun w hw => hlv w (mem_of_mem_split_snd hw), hrv, (ihl hl).2, hr⟩
    · exact ⟨⟨hlv, fun w hw => hrv w (mem_of_mem_split_fst hw), hl, (ihr hr).1⟩, (ihr hr).2⟩

theorem MaxHeap.merge (h : MaxHeap prio t) (h' : MaxHeap prio t') :
    MaxHeap prio (merge prio t t') := by
  induction t, t' using merge.induct prio with
  | case1 t => simpa [NodeTree.merge] using h'
  | case2 t _ => cases t <;> simpa [NodeTree.merge] using h
  | case3 l v r l' v' r' hlt ih =>
    obtain ⟨hlv, hrv, hl, hr⟩ := h
    have hle : ∀ w, w ∈ (node l' v' r').inorder → prio w ≤ prio v := by
      intro w hw
      obtain ⟨hlv', hrv', -, -⟩ := h'
      simp only [inorder_node, List.mem_append, List.mem_cons] at hw
      rcases hw with hw | rfl | hw
      · exact (hlv' w hw).trans hlt.le
      · exact hlt.le
      · exact (hrv' w hw).trans hlt.le
    rw [NodeTree.merge, if_pos hlt]
    refine ⟨hlv, fun w hw => ?_, hl, ih hr h'⟩
    rw [inorder_merge, List.mem_append] at hw
    rcases hw with hw | hw
    · exact hrv w hw
    · exact hle w hw
  | case4 l v r l' v' r' hlt ih =>
    obtain ⟨hlv', hrv', hl', hr'⟩ := h'
    have hvv : prio v ≤ prio v' := not_lt.mp hlt
    have hle : ∀ w, w ∈ (node l v r).inorder → prio w ≤ prio v' := by
      intro w hw
      obtain ⟨hlv, hrv, -, -⟩ := h
      simp only [inorder_node, List.mem_append, List.mem_cons] at hw
      rcases hw with hw | rfl | hw
      · exact (hlv w hw).trans hvv
      · exact hvv
      · exact (hrv w hw).trans hvv
    rw [NodeTree.merge, if_neg hlt]
    refine ⟨fun w hw => ?_, hrv', ih h hl', hr'⟩
    rw [inorder_merge, List.mem_append] at hw
    rcases hw with hw | hw
    · exact hle w hw
    · exact hlv' w hw

theorem split_of_all_le (h : ∀ w, w ∈ t.inorder → key w ≤ k) : t.split key k = (t, nil) := by
  induction t with
  | nil => rfl
  | node l v r _ ihr =>
    rw [split_of_not_lt key (not_lt.mpr (h v (by simp))), ihr fun w hw => h w (by simp [hw])]

theorem split_of_all_gt (h : ∀ w, w ∈ t.inorder → k < key w) : t.split key k = (nil, t) := by
  induction t with
  | nil => rfl
  | node l v r ihl _ =>
    rw [split_of_lt key (h v (by simp)), ihl fun w hw => h w (by simp [hw])]

/-- Splitting between two merged trees gives them back as they were. -/
theorem split_merge (h : ∀ w, w ∈ t.inorder → key w ≤ k) (h' : ∀ w, w ∈ t'.inorder → k < key w) :
    (merge prio t t').split key k = (t, t') := by
  induction t, t' using merge.induct prio with
  | case1 t =>
    rw [NodeTree.merge]
    exact split_of_all_gt h'
  | case2 t _ =>
    rw [merge_nil]
    exact split_of_all_le h
  | case3 l v r l' v' r' hlt ih =>
    rw [merge_of_lt prio hlt, split_of_not_lt key (not_lt.mpr (h v (by simp))),
      ih (fun w hw => h w (by simp [hw])) h']
  | case4 l v r l' v' r' hlt ih =>
    rw [merge_of_not_lt prio hlt, split_of_lt key (h' v' (by simp)),
      ih h fun w hw => h' w (by simp [hw])]

theorem maxHeap_leaf (prio : V → P) (v : V) : MaxHeap prio (leaf v) :=
  ⟨by simp, by simp, trivial, trivial⟩

theorem SearchTree.insert (h : SearchTree key t) (hx : ∀ w, w ∈ t.inorder → key w ≠ key x) :
    SearchTree key (t.insert key x) := by
  induction t with
  | nil => simp [NodeTree.insert, SearchTree]
  | node l v r ihl ihr =>
    obtain ⟨hl, hr, hlv, hvr⟩ := searchTree_node.mp h
    rw [NodeTree.insert]
    split
    · rename_i hlt
      refine searchTree_node.mpr ⟨ihl hl fun w hw => hx w (by simp [hw]), hr, fun w hw => ?_, hvr⟩
      rcases (mem_insert key x w l).mp hw with rfl | hw
      · exact hlt
      · exact hlv w hw
    · rename_i hge
      refine searchTree_node.mpr ⟨hl, ihr hr fun w hw => hx w (by simp [hw]), hlv, fun w hw => ?_⟩
      rcases (mem_insert key x w r).mp hw with rfl | hw
      · exact lt_of_le_of_ne (not_lt.mp hge) (hx v (by simp))
      · exact hvr w hw

theorem SearchTree.search_of_mem {w : V} (h : SearchTree key t) (hw : w ∈ t.inorder) :
    t.search key (key w) = some w := by
  induction t with
  | nil => cases hw
  | node l v r ihl ihr =>
    obtain ⟨hl, hr, hlv, hvr⟩ := searchTree_node.mp h
    simp only [inorder_node, List.mem_append, List.mem_cons] at hw
    rw [search]
    rcases hw with hw | rfl | hw
    · rw [if_neg (hlv w hw).ne, if_pos (hlv w hw)]
      exact ihl hl hw
    · rw [if_pos rfl]
    · rw [if_neg (hvr w hw).ne', if_neg (hvr w hw).asymm]
      exact ihr hr hw

end Order

section Remove

variable {I : Type u} {B : Type v} {K : Type w} [LinearOrder K] (key : B → K)

/-- Without a left or a right child the other child takes the place of the node. With both,
the node takes the content of its successor, and the successor is cut off. -/
def removeRoot (l : NodeTree (I × B)) (v : I × B) (r : NodeTree (I × B)) :
    NodeTree (I × B) × Option (I × B) :=
  match l, r.leftmost with
  | nil, _ => (r, some v)
  | l, none => (l, some v)
  | l, some m => (node l (v.1, m.2) r.removeMin, some m)

/-- The tree without the node found under `k`, and the node cut off. -/
def remove (k : K) : NodeTree (I × B) → NodeTree (I × B) × Option (I × B)
  | nil => (nil, none)
  | node l v r =>
    if k < key v.2 then (node (l.remove k).1 v r, (l.remove k).2)
    else if key v.2 < k then (node l v (r.remove k).1, (r.remove k).2)
    else removeRoot l v r

section Equations

variable {key} {k : K} {l r : NodeTree (I × B)} {v : I × B}

theorem remove_of_lt (h : k < key v.2) :
    (node l v r).remove key k = (node (l.remove key k).1 v r, (l.remove key k).2) :=
  if_pos h

theorem remove_of_gt (h : key v.2 < k) :
    (node l v r).remove key k = (node l v (r.remove key k).1, (r.remove key k).2) := by
  rw [remove, if_neg h.asymm, if_pos h]

theorem remove_of_eq (h : k = key v.2) : (node l v r).remove key k = removeRoot l v r := by
  rw [remove, if_neg h.not_lt, if_neg h.not_gt]

end Equations

theorem removeRoot_nil_left (v : I × B) (r : NodeTree (I × B)) :
    removeRoot nil v r = (r, some v) := by
  cases r <;> rfl

theorem removeRoot_nil_right (l : NodeTree (I × B)) (v : I × B) :
    removeRoot l v nil = (l, some v) := by
  cases l <;> rfl

/-- With two children the successor gives its content away and goes. -/
theorem removeRoot_cases (l : NodeTree (I × B)) (v : I × B) (r : NodeTree (I × B)) :
    (l = nil ∧ removeRoot l v r = (r, some v)) ∨ (r = nil ∧ removeRoot l v r = (l, some v)) ∨
      ∃ m, r.inorder = m :: r.removeMin.inorder ∧ r.leftmost = some m ∧
        removeRoot l v r = (node l (v.1, m.2) r.removeMin, some m) := by
  cases l with
  | nil => exact Or.inl ⟨rfl, removeRoot_nil_left v r⟩
  | node ll lv lr =>
    cases hm : r.leftmost with
    | none =>
      rw [leftmost_eq_head, List.head?_eq_none_iff, inorder_eq_nil] at hm
      subst hm
      exact Or.inr (Or.inl ⟨rfl, rfl⟩)
    | some m =>
      refine Or.inr (Or.inr ⟨m, ?_, rfl, by simp [removeRoot, hm]⟩)
      rw [leftmost_eq_head] at hm
      rw [inorder_removeMin]
      exact List.eq_cons_of_mem_head? hm

theorem removeRoot_ids (l : NodeTree (I × B)) (v : I × B) (r : NodeTree (I × B)) :
    (((removeRoot l v r).2.toList ++ (removeRoot l v r).1.inorder).map Prod.fst).Perm
      ((node l v r).inorder.map Prod.fst) := by
  rcases removeRoot_cases l v r with ⟨rfl, h⟩ | ⟨rfl, h⟩ | ⟨m, hr, -, h⟩
  · simp [h]
  · rw [h]
    have hperm : ([v.1] ++ l.inorder.map Prod.fst).Perm (l.inorder.map Prod.fst ++ [v.1]) :=
      List.perm_append_comm
    simpa using hperm
  · rw [h, inorder_node, inorder_node, hr]
    simp only [Option.toList_some, List.singleton_append, List.map_cons, List.map_append]
    refine List.perm_middle.symm.trans (List.Perm.append_left _ ?_)
    exact List.Perm.swap _ _ _

/-- Deletion gives back every identity, in the tree or as the node cut off. -/
theorem remove_ids (k : K) (t : NodeTree (I × B)) :
    (((t.remove key k).2.toList ++ (t.remove key k).1.inorder).map Prod.fst).Perm
      (t.inorder.map Prod.fst) := by
  induction t with
  | nil => exact List.Perm.refl _
  | node l v r ihl ihr =>
    rw [remove]
    split
    · simpa using ihl.append_right ((v :: r.inorder).map Prod.fst)
    split
    · simp only [inorder_node, List.map_append, List.map_cons] at ihr ⊢
      rw [← List.append_assoc]
      refine (List.perm_append_comm.append_right _).trans ?_
      rw [List.append_assoc]
      refine List.Perm.append_left _ ?_
      exact List.perm_middle.trans (ihr.cons v.1)
    · exact removeRoot_ids l v r

/-- Deletion makes no new content. -/
theorem removeRoot_contents (l : NodeTree (I × B)) (v : I × B) (r : NodeTree (I × B)) :
    (∀ w, w ∈ (removeRoot l v r).1.inorder → w.2 ∈ (node l v r).inorder.map Prod.snd) ∧
      ∀ x, (removeRoot l v r).2 = some x → x ∈ (node l v r).inorder := by
  rcases removeRoot_cases l v r with ⟨rfl, h⟩ | ⟨rfl, h⟩ | ⟨m, hr, -, h⟩
  · rw [h]
    refine ⟨fun w hw => List.mem_map_of_mem (by simp [hw]), fun x hx => ?_⟩
    cases hx
    simp
  · rw [h]
    refine ⟨fun w hw => List.mem_map_of_mem (by simp [hw]), fun x hx => ?_⟩
    cases hx
    simp
  · rw [h]
    constructor
    · intro w hw
      simp only [inorder_node, hr, List.mem_append, List.mem_cons] at hw ⊢
      rw [List.mem_map]
      rcases hw with hw | rfl | hw
      · exact ⟨w, by simp [hw], rfl⟩
      · exact ⟨m, by simp, rfl⟩
      · exact ⟨w, by simp [hw], rfl⟩
    · intro x hx
      cases hx
      simp [hr]

theorem remove_contents (k : K) (t : NodeTree (I × B)) :
    ∀ w, w ∈ (t.remove key k).1.inorder → w.2 ∈ t.inorder.map Prod.snd := by
  induction t with
  | nil => exact fun w hw => nomatch hw
  | node l v r ihl ihr =>
    rw [remove]
    split
    · intro w hw
      simp only [inorder_node, List.mem_append, List.mem_cons, List.map_append,
        List.map_cons] at hw ⊢
      rcases hw with hw | rfl | hw
      · exact Or.inl (ihl w hw)
      · simp
      · exact Or.inr (Or.inr (List.mem_map_of_mem hw))
    split
    · intro w hw
      simp only [inorder_node, List.mem_append, List.mem_cons, List.map_append,
        List.map_cons] at hw ⊢
      rcases hw with hw | rfl | hw
      · exact Or.inl (List.mem_map_of_mem hw)
      · simp
      · exact Or.inr (Or.inr (ihr w hw))
    · exact (removeRoot_contents l v r).1

variable {key} {P : Type w} [LinearOrder P] {prio : I × B → P}

/-- The last node has no right child, so it is cut off itself. -/
theorem remove_rightmost {t : NodeTree (I × B)} {m : I × B}
    (h : SearchTree (fun v => key v.2) t) (hheap : MaxHeap prio t) (hm : t.rightmost = some m) :
    (t.remove key (key m.2)).2 = some m ∧
      (t.remove key (key m.2)).1.inorder = t.inorder.dropLast ∧
      MaxHeap prio (t.remove key (key m.2)).1 := by
  induction t with
  | nil => cases hm
  | node l v r _ ihr =>
    obtain ⟨hl, hr, hlv, hvr⟩ := searchTree_node.mp h
    obtain ⟨hpl, hpr, hhl, hhr⟩ := hheap
    rw [rightmost] at hm
    cases hrm : r.rightmost with
    | none =>
      rw [hrm, Option.none_or] at hm
      cases hm
      rw [rightmost_eq_last, List.getLast?_eq_none_iff, inorder_eq_nil] at hrm
      subst hrm
      rw [remove, if_neg (lt_irrefl _), if_neg (lt_irrefl _), removeRoot_nil_right]
      exact ⟨rfl, by simp, hhl⟩
    | some m' =>
      rw [hrm, Option.some_or] at hm
      cases hm
      obtain ⟨hrem, hin, hheap'⟩ := ihr hr hhr hrm
      have hmem : m ∈ r.inorder := by
        rw [rightmost_eq_last] at hrm
        exact List.mem_of_getLast? hrm
      have hlt := hvr m hmem
      rw [remove, if_neg hlt.asymm, if_pos hlt]
      have hne : r.inorder ≠ [] := List.ne_nil_of_mem hmem
      refine ⟨hrem, ?_, hpl, fun w hw => hpr w ?_, hhl, hheap'⟩
      · rw [inorder_node, inorder_node, hin, List.dropLast_append_of_ne_nil (by simp),
          List.dropLast_cons_of_ne_nil hne]
      · rw [hin] at hw
        exact (List.dropLast_sublist _).mem hw

theorem remove_leftmost {t : NodeTree (I × B)} {m : I × B}
    (h : SearchTree (fun v => key v.2) t) (hheap : MaxHeap prio t) (hm : t.leftmost = some m) :
    (t.remove key (key m.2)).2 = some m ∧
      (t.remove key (key m.2)).1.inorder = t.inorder.tail ∧
      MaxHeap prio (t.remove key (key m.2)).1 := by
  induction t with
  | nil => cases hm
  | node l v r ihl _ =>
    obtain ⟨hl, hr, hlv, hvr⟩ := searchTree_node.mp h
    obtain ⟨hpl, hpr, hhl, hhr⟩ := hheap
    rw [leftmost] at hm
    cases hlm : l.leftmost with
    | none =>
      rw [hlm, Option.none_or] at hm
      cases hm
      rw [leftmost_eq_head, List.head?_eq_none_iff, inorder_eq_nil] at hlm
      subst hlm
      rw [remove, if_neg (lt_irrefl _), if_neg (lt_irrefl _), removeRoot_nil_left]
      exact ⟨rfl, by simp, hhr⟩
    | some m' =>
      rw [hlm, Option.some_or] at hm
      cases hm
      obtain ⟨hrem, hin, hheap'⟩ := ihl hl hhl hlm
      have hmem : m ∈ l.inorder := by
        rw [leftmost_eq_head] at hlm
        exact List.mem_of_mem_head? hlm
      have hlt := hlv m hmem
      rw [remove, if_pos hlt]
      have hne : l.inorder ≠ [] := List.ne_nil_of_mem hmem
      refine ⟨hrem, ?_, fun w hw => hpl w ?_, hpr, hheap', hhr⟩
      · rw [inorder_node, inorder_node, hin, List.tail_append_of_ne_nil hne]
      · rw [hin] at hw
        exact List.mem_of_mem_tail hw

end Remove

section Found

variable {I : Type u} {B : Type v} {K : Type w} [LinearOrder K] {key : B → K}
  {l r t : NodeTree (I × B)} {v : I × B} {k : K}

/-- The node found under `k` has two children. -/
def Full (key : B → K) (k : K) : NodeTree (I × B) → Prop
  | nil => False
  | node l v r =>
    if k < key v.2 then l.Full key k else if key v.2 < k then r.Full key k else l ≠ nil ∧ r ≠ nil

theorem full_of_lt (h : k < key v.2) : (node l v r).Full key k ↔ l.Full key k := by
  rw [Full, if_pos h]

theorem full_of_gt (h : key v.2 < k) : (node l v r).Full key k ↔ r.Full key k := by
  rw [Full, if_neg h.asymm, if_pos h]

theorem full_of_eq (h : k = key v.2) : (node l v r).Full key k ↔ l ≠ nil ∧ r ≠ nil := by
  rw [Full, if_neg h.not_lt, if_neg h.not_gt]

theorem removeRoot_inorder (l : NodeTree (I × B)) (v : I × B) (r : NodeTree (I × B)) :
    (removeRoot l v r).1.inorder.map Prod.snd = (l.inorder ++ r.inorder).map Prod.snd := by
  rcases removeRoot_cases l v r with ⟨rfl, h⟩ | ⟨rfl, h⟩ | ⟨m, hr, -, h⟩
  · simp [h]
  · simp [h]
  · simp [h, hr]

theorem contents_kept {s : List (I × B)} (h : ∀ w, w ∈ s → key w.2 ≠ k) :
    (s.map Prod.snd).filter (fun b => key b ≠ k) = s.map Prod.snd := by
  rw [List.filter_eq_self]
  intro b hb
  obtain ⟨w, hw, rfl⟩ := List.mem_map.mp hb
  exact decide_eq_true (h w hw)

/-- The contents left are the others, in their order. -/
theorem remove_inorder (h : SearchTree (fun v => key v.2) t) :
    (t.remove key k).1.inorder.map Prod.snd =
      (t.inorder.map Prod.snd).filter (fun b => key b ≠ k) := by
  induction t with
  | nil => rfl
  | node l v r ihl ihr =>
    obtain ⟨hl, hr, hlv, hvr⟩ := searchTree_node.mp h
    rcases lt_trichotomy k (key v.2) with hlt | rfl | hgt
    · have hkeep := contents_kept fun w hw => (hlt.trans (hvr w hw)).ne'
      rw [remove_of_lt hlt, inorder_node, inorder_node, List.map_append, List.map_append,
        List.filter_append, ihl hl, List.map_cons, List.filter_cons_of_pos (by simpa using hlt.ne'),
        hkeep]
    · have hkeep := contents_kept fun w hw => (hlv w hw).ne
      have hkeep' := contents_kept fun w hw => (hvr w hw).ne'
      rw [remove_of_eq rfl, removeRoot_inorder, inorder_node, List.map_append, List.map_append,
        List.filter_append, hkeep, List.map_cons, List.filter_cons_of_neg (by simp), hkeep']
    · have hkeep := contents_kept fun w hw => ((hlv w hw).trans hgt).ne
      rw [remove_of_gt hgt, inorder_node, inorder_node, List.map_append, List.map_append,
        List.filter_append, hkeep, List.map_cons, List.map_cons,
        List.filter_cons_of_pos (by simpa using hgt.ne), ihr hr]

theorem searchTree_iff_contents :
    SearchTree (fun v => key v.2) t ↔
      (t.inorder.map Prod.snd).Pairwise fun b c => key b < key c := by
  rw [SearchTree, List.pairwise_map]

theorem SearchTree.remove (h : SearchTree (fun v => key v.2) t) :
    SearchTree (fun v => key v.2) (t.remove key k).1 := by
  rw [searchTree_iff_contents, remove_inorder h]
  exact (searchTree_iff_contents.mp h).sublist List.filter_sublist

/-- The node reported is the node found, or the successor of a node with two children. -/
theorem removeRoot_reported (h : SearchTree (fun v => key v.2) (node l v r)) :
    ∃ x, (removeRoot l v r).2 = some x ∧
      (x = v ∧ ¬ (l ≠ nil ∧ r ≠ nil) ∨ key v.2 < key x.2 ∧ l ≠ nil ∧ r ≠ nil) := by
  by_cases hl : l = nil
  · subst hl
    exact ⟨v, by rw [removeRoot_nil_left], Or.inl ⟨rfl, fun hn => hn.1 rfl⟩⟩
  · by_cases hr : r = nil
    · subst hr
      exact ⟨v, by rw [removeRoot_nil_right], Or.inl ⟨rfl, fun hn => hn.2 rfl⟩⟩
    · obtain ⟨-, -, -, hvr⟩ := searchTree_node.mp h
      rcases removeRoot_cases l v r with ⟨hnil, -⟩ | ⟨hnil, -⟩ | ⟨m, hm, -, hroot⟩
      · exact absurd hnil hl
      · exact absurd hnil hr
      · exact ⟨m, by rw [hroot], Or.inr ⟨hvr m (by simp [hm]), hl, hr⟩⟩

theorem remove_reported (h : SearchTree (fun v => key v.2) t) (hv : v ∈ t.inorder) :
    ∃ x, (t.remove key (key v.2)).2 = some x ∧
      (x = v ∧ ¬ t.Full key (key v.2) ∨ key v.2 < key x.2 ∧ t.Full key (key v.2)) := by
  induction t with
  | nil => cases hv
  | node l w r ihl ihr =>
    obtain ⟨hl, hr, hlw, hwr⟩ := searchTree_node.mp h
    simp only [inorder_node, List.mem_append, List.mem_cons] at hv
    rcases hv with hv | rfl | hv
    · rw [remove_of_lt (hlw v hv), full_of_lt (hlw v hv)]
      exact ihl hl hv
    · rw [remove_of_eq rfl, full_of_eq rfl]
      exact removeRoot_reported h
    · rw [remove_of_gt (hwr v hv), full_of_gt (hwr v hv)]
      exact ihr hr hv

end Found

section Cut

variable {V : Type u} {K : Type v} {P : Type w} [LinearOrder K] [LinearOrder P] {key : V → K}
  {prio : V → P} {l r t : NodeTree V} {v w : V} {k : K}

/-- The merge of its children takes the place of the node found under `k`. -/
def cut (key : V → K) (prio : V → P) (k : K) : NodeTree V → NodeTree V × Option V
  | nil => (nil, none)
  | node l v r =>
    if key v = k then (merge prio l r, some v)
    else if k < key v then (node (l.cut key prio k).1 v r, (l.cut key prio k).2)
    else (node l v (r.cut key prio k).1, (r.cut key prio k).2)

theorem cut_of_eq (h : key v = k) : (node l v r).cut key prio k = (merge prio l r, some v) :=
  if_pos h

theorem cut_of_lt (h : k < key v) :
    (node l v r).cut key prio k = (node (l.cut key prio k).1 v r, (l.cut key prio k).2) := by
  rw [cut, if_neg h.ne', if_pos h]

theorem cut_of_gt (h : key v < k) :
    (node l v r).cut key prio k = (node l v (r.cut key prio k).1, (r.cut key prio k).2) := by
  rw [cut, if_neg h.ne, if_neg h.asymm]

theorem filter_split_fst (h : SearchTree key t) :
    (t.split key k).1.inorder = t.inorder.filter fun v => key v ≤ k := by
  have hfst : (t.split key k).1.inorder.filter (fun v => key v ≤ k) = (t.split key k).1.inorder :=
    List.filter_eq_self.mpr fun w hw => decide_eq_true (split_fst_le h w hw)
  have hsnd : (t.split key k).2.inorder.filter (fun v => key v ≤ k) = [] :=
    List.filter_eq_nil_iff.mpr fun w hw => by simpa using lt_split_snd h w hw
  rw [← inorder_split key k t, List.filter_append, hfst, hsnd, List.append_nil]

theorem filter_split_snd (h : SearchTree key t) :
    (t.split key k).2.inorder = t.inorder.filter fun v => k < key v := by
  have hfst : (t.split key k).1.inorder.filter (fun v => k < key v) = [] :=
    List.filter_eq_nil_iff.mpr fun w hw => by simpa using split_fst_le h w hw
  have hsnd : (t.split key k).2.inorder.filter (fun v => k < key v) = (t.split key k).2.inorder :=
    List.filter_eq_self.mpr fun w hw => decide_eq_true (lt_split_snd h w hw)
  rw [← inorder_split key k t, List.filter_append, hfst, hsnd, List.nil_append]

theorem inorder_kept {s : List V} (h : ∀ w, w ∈ s → key w ≠ k) :
    s.filter (fun v => key v ≠ k) = s :=
  List.filter_eq_self.mpr fun w hw => decide_eq_true (h w hw)

theorem inorder_cut (h : SearchTree key t) :
    (t.cut key prio k).1.inorder = t.inorder.filter fun v => key v ≠ k := by
  induction t with
  | nil => rfl
  | node l v r ihl ihr =>
    obtain ⟨hl, hr, hlv, hvr⟩ := searchTree_node.mp h
    rcases lt_trichotomy k (key v) with hlt | rfl | hgt
    · have hkeep := inorder_kept fun w hw => (hlt.trans (hvr w hw)).ne'
      rw [cut_of_lt hlt, inorder_node, inorder_node, List.filter_append, ihl hl,
        List.filter_cons_of_pos (by simpa using hlt.ne'), hkeep]
    · have hkeep := inorder_kept fun w hw => (hlv w hw).ne
      have hkeep' := inorder_kept fun w hw => (hvr w hw).ne'
      rw [cut_of_eq rfl, inorder_merge, inorder_node, List.filter_append, hkeep,
        List.filter_cons_of_neg (by simp), hkeep']
    · have hkeep := inorder_kept fun w hw => ((hlv w hw).trans hgt).ne
      rw [cut_of_gt hgt, inorder_node, inorder_node, List.filter_append, hkeep,
        List.filter_cons_of_pos (by simpa using hgt.ne), ihr hr]

theorem SearchTree.cut (h : SearchTree key t) : SearchTree key (t.cut key prio k).1 := by
  apply h.of_inorder_sublist
  rw [inorder_cut h]
  exact List.filter_sublist

theorem mem_of_mem_cut (h : w ∈ (t.cut key prio k).1.inorder) : w ∈ t.inorder := by
  induction t with
  | nil => exact h
  | node l v r ihl ihr =>
    rw [NodeTree.cut] at h
    split at h
    · rw [inorder_merge, List.mem_append] at h
      simp only [inorder_node, List.mem_append, List.mem_cons]
      tauto
    split at h
    · simp only [inorder_node, List.mem_append, List.mem_cons] at h ⊢
      exact h.imp_left ihl
    · simp only [inorder_node, List.mem_append, List.mem_cons] at h ⊢
      exact h.imp_right (Or.imp_right ihr)

theorem MaxHeap.cut (h : MaxHeap prio t) : MaxHeap prio (t.cut key prio k).1 := by
  induction t with
  | nil => trivial
  | node l v r ihl ihr =>
    obtain ⟨hlv, hrv, hl, hr⟩ := h
    rw [NodeTree.cut]
    split
    · exact hl.merge hr
    split
    · exact ⟨fun w hw => hlv w (mem_of_mem_cut hw), hrv, ihl hl, hr⟩
    · exact ⟨hlv, fun w hw => hrv w (mem_of_mem_cut hw), hl, ihr hr⟩

theorem cut_reported (h : SearchTree key t) (hv : v ∈ t.inorder) :
    (t.cut key prio (key v)).2 = some v := by
  induction t with
  | nil => cases hv
  | node l w r ihl ihr =>
    obtain ⟨hl, hr, hlw, hwr⟩ := searchTree_node.mp h
    simp only [inorder_node, List.mem_append, List.mem_cons] at hv
    rcases hv with hv | rfl | hv
    · rw [cut_of_lt (hlw v hv)]
      exact ihl hl hv
    · rw [cut_of_eq rfl]
    · rw [cut_of_gt (hwr v hv)]
      exact ihr hr hv

end Cut

end NodeTree

end BinaryTree
