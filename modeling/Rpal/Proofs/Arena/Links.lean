import Rpal.Arena.Basic
import Mathlib

/-!
# Links of an arena

What a change of an arena does to the labels and the links of its nodes, and what it means that the
links from a node on unfold to a tree.

## Key results

- `label_…`, `child_…`, `sibling_…`: the labels and links after every operation on arenas
- `Chain`: the siblings that a link leads to
- `chain_setChildren`: `setChildren` makes a chain and changes no other link
- `UnfoldsAll`: the trees that a link leads to, within a region of the arena
-/

namespace Rpal.Arena

variable {a a' : Arena}

/-! ### Labels and links after a change -/

/-- The next node is placed behind all others. -/
@[simp] theorem nextId_eq_size (a : Arena) : a.nextId = a.size := rfl

/-- A change of a node is seen at its place only. -/
theorem node_modify (a : Arena) {id : Nat} (f : Node → Node) (h : id < a.size) (y : Nat) :
    (a.modify id f).node y = if y = id then f (a.node y) else a.node y := by
  split
  · next heq => rw [heq, node_modify_self f h]
  · next hne => exact node_modify_of_ne f (Ne.symm hne)

/-- A change that keeps a part of every node keeps that part everywhere. -/
theorem modify_keeps {β : Type} (p : Node → β) {f : Node → Node} (hf : ∀ n, p (f n) = p n)
    (a : Arena) (id y : Nat) : p ((a.modify id f).node y) = p (a.node y) := by
  by_cases h : id = y
  · subst h
    by_cases hid : id < a.size
    · rw [node_modify_self f hid, hf]
    · simp [modify, node, Array.getD, show ¬ id < a.nodes.size from hid]
  · rw [node_modify_of_ne f h]

@[simp] theorem size_setSibling (a : Arena) (id : Nat) (t : Option Nat) :
    (a.setSibling id t).size = a.size :=
  size_modify ..

@[simp] theorem size_setChild (a : Arena) (id : Nat) (t : Option Nat) :
    (a.setChild id t).size = a.size :=
  size_modify ..

@[simp] theorem size_setKind (a : Arena) (id : Nat) (k : Kind) : (a.setKind id k).size = a.size :=
  size_modify ..

@[simp] theorem label_setSibling (a : Arena) (id : Nat) (t : Option Nat) (y : Nat) :
    (a.setSibling id t).label y = a.label y :=
  modify_keeps Node.label (by intro; rfl) a id y

@[simp] theorem child_setSibling (a : Arena) (id : Nat) (t : Option Nat) (y : Nat) :
    (a.setSibling id t).child y = a.child y :=
  modify_keeps Node.child (by intro; rfl) a id y

/-- The link to the sibling is changed for one node. -/
theorem sibling_setSibling {id : Nat} (h : id < a.size) (t : Option Nat) (y : Nat) :
    (a.setSibling id t).sibling y = if y = id then t else a.sibling y := by
  rw [sibling, setSibling, node_modify a _ h]
  split <;> rfl

@[simp] theorem label_setChild (a : Arena) (id : Nat) (t : Option Nat) (y : Nat) :
    (a.setChild id t).label y = a.label y :=
  modify_keeps Node.label (by intro; rfl) a id y

@[simp] theorem sibling_setChild (a : Arena) (id : Nat) (t : Option Nat) (y : Nat) :
    (a.setChild id t).sibling y = a.sibling y :=
  modify_keeps Node.sibling (by intro; rfl) a id y

/-- The link to the child is changed for one node. -/
theorem child_setChild {id : Nat} (h : id < a.size) (t : Option Nat) (y : Nat) :
    (a.setChild id t).child y = if y = id then t else a.child y := by
  rw [child, setChild, node_modify a _ h]
  split <;> rfl

@[simp] theorem child_setKind (a : Arena) (id : Nat) (k : Kind) (y : Nat) :
    (a.setKind id k).child y = a.child y :=
  modify_keeps Node.child (by intro; rfl) a id y

@[simp] theorem sibling_setKind (a : Arena) (id : Nat) (k : Kind) (y : Nat) :
    (a.setKind id k).sibling y = a.sibling y :=
  modify_keeps Node.sibling (by intro; rfl) a id y

/-- The construct is changed for one node, whose text and line stay. -/
theorem label_setKind {id : Nat} (h : id < a.size) (k : Kind) (y : Nat) :
    (a.setKind id k).label y = if y = id then { a.label y with kind := k } else a.label y := by
  rw [label, setKind, node_modify a _ h]
  split <;> rfl

@[simp] theorem root_alloc (a : Arena) (l : Label) : (a.alloc l).root = a.root := rfl

@[simp] theorem root_setSibling (a : Arena) (id : Nat) (t : Option Nat) :
    (a.setSibling id t).root = a.root := rfl

@[simp] theorem root_setChild (a : Arena) (id : Nat) (t : Option Nat) :
    (a.setChild id t).root = a.root := rfl

@[simp] theorem root_setKind (a : Arena) (id : Nat) (k : Kind) : (a.setKind id k).root = a.root := rfl

@[simp] theorem standardized_alloc (a : Arena) (l : Label) :
    (a.alloc l).standardized = a.standardized := rfl

@[simp] theorem standardized_setSibling (a : Arena) (id : Nat) (t : Option Nat) :
    (a.setSibling id t).standardized = a.standardized := rfl

@[simp] theorem standardized_setChild (a : Arena) (id : Nat) (t : Option Nat) :
    (a.setChild id t).standardized = a.standardized := rfl

@[simp] theorem standardized_setKind (a : Arena) (id : Nat) (k : Kind) :
    (a.setKind id k).standardized = a.standardized := rfl

/-- A new node is seen at its place only. -/
theorem node_alloc (a : Arena) (l : Label) (y : Nat) :
    (a.alloc l).node y =
      if y = a.size then { label := l, child := none, sibling := none } else a.node y := by
  split
  · next heq => rw [heq, ← nextId_eq_size, node_alloc_nextId]
  · next hne =>
    by_cases hlt : y < a.size
    · exact node_alloc_of_lt l hlt
    · -- beyond the new node there is nothing
      have hlt' : ¬ y < a.nodes.size + 1 := by simp only [size] at hlt hne; omega
      simp [alloc, node, Array.getD, hlt', show ¬ y < a.nodes.size from hlt]

/-- There is nothing behind the nodes of the arena. -/
theorem node_of_le {y : Nat} (h : a.size ≤ y) : a.node y = default := by
  simp [node, Array.getD, Nat.not_lt.2 (show a.nodes.size ≤ y from h)]

/-- The label of an added node is the one that was asked for. -/
theorem label_alloc (a : Arena) (l : Label) (y : Nat) :
    (a.alloc l).label y = if y = a.size then l else a.label y := by
  rw [label, node_alloc]
  split <;> rfl

/-- An added node has no child, and the others keep theirs. -/
@[simp] theorem child_alloc (a : Arena) (l : Label) (y : Nat) :
    (a.alloc l).child y = a.child y := by
  rw [child, node_alloc]
  split
  · next heq => rw [heq, child, node_of_le (Nat.le_refl _)]; rfl
  · rfl

/-- An added node has no sibling, and the others keep theirs. -/
@[simp] theorem sibling_alloc (a : Arena) (l : Label) (y : Nat) :
    (a.alloc l).sibling y = a.sibling y := by
  rw [sibling, node_alloc]
  split
  · next heq => rw [heq, sibling, node_of_le (Nat.le_refl _)]; rfl
  · rfl

/-- A place beyond the arena has no links. -/
theorem child_of_le {y : Nat} (h : a.size ≤ y) : a.child y = none := by
  rw [child, node_of_le h]; rfl

/-- Behind the nodes of the arena, there are no links. -/
theorem sibling_of_le {y : Nat} (h : a.size ≤ y) : a.sibling y = none := by
  rw [sibling, node_of_le h]; rfl

/-- Nodes are equal if their labels and their links are. -/
theorem node_eq_iff {y : Nat} : a'.node y = a.node y ↔
    a'.label y = a.label y ∧ a'.child y = a.child y ∧ a'.sibling y = a.sibling y := by
  simp only [label, child, sibling]
  cases a'.node y
  cases a.node y
  simp

/-- Distinct nodes are not more than there are in the arena. -/
theorem length_le_size {path : List Nat} (hnodup : path.Nodup) (hlt : ∀ y ∈ path, y < a.size) :
    path.length ≤ a.size := by
  have hsub : path ⊆ List.range a.size := fun y hy => List.mem_range.2 (hlt y hy)
  have hle := (hnodup.subperm hsub).length_le
  rwa [List.length_range] at hle

/-! ### Chains of siblings -/

/-- The link leads to the siblings `ids`. -/
def Chain (a : Arena) : Option Nat → List Nat → Prop
  | link, [] => link = none
  | link, id :: ids => link = some id ∧ a.Chain (a.sibling id) ids

/-- A chain depends on the siblings of its own nodes only. -/
theorem Chain.congr {link : Option Nat} {ids : List Nat} (h : a.Chain link ids)
    (hs : ∀ id ∈ ids, a'.sibling id = a.sibling id) : a'.Chain link ids := by
  induction ids generalizing link with
  | nil => exact h
  | cons id ids ih =>
    obtain ⟨hid, hids⟩ := List.forall_mem_cons.1 hs
    exact ⟨h.1, ih (hid ▸ h.2) hids⟩

/-- The siblings are found by following the links. -/
theorem Chain.siblings {n : Nat} {link : Option Nat} {ids : List Nat} (h : a.Chain link ids)
    (hn : ids.length ≤ n) : a.siblings n link = ids := by
  induction ids generalizing n link with
  | nil =>
    obtain rfl := h
    cases n <;> rfl
  | cons id ids ih =>
    obtain ⟨rfl, hids⟩ := h
    obtain ⟨n, rfl⟩ : ∃ k, n = k + 1 := ⟨n - 1, by rw [List.length_cons] at hn; omega⟩
    rw [Arena.siblings, ih hids (by simpa using hn)]

@[simp] theorem size_chain (a : Arena) (ids : List Nat) : (a.chain ids).size = a.size := by
  fun_induction Arena.chain a ids with
  | case1 => rfl
  | case2 => exact size_setSibling ..
  | case3 a id next more ih => rw [ih, size_setSibling]

@[simp] theorem root_chain (a : Arena) (ids : List Nat) : (a.chain ids).root = a.root := by
  fun_induction Arena.chain a ids with
  | case1 => rfl
  | case2 => exact root_setSibling ..
  | case3 a id next more ih => rw [ih, root_setSibling]

@[simp] theorem standardized_chain (a : Arena) (ids : List Nat) :
    (a.chain ids).standardized = a.standardized := by
  fun_induction Arena.chain a ids with
  | case1 => rfl
  | case2 => rfl
  | case3 a id next more ih => rw [ih]; rfl

@[simp] theorem label_chain (a : Arena) (ids : List Nat) (y : Nat) :
    (a.chain ids).label y = a.label y := by
  fun_induction Arena.chain a ids with
  | case1 => rfl
  | case2 => exact label_setSibling ..
  | case3 a id next more ih => rw [ih, label_setSibling]

@[simp] theorem child_chain (a : Arena) (ids : List Nat) (y : Nat) :
    (a.chain ids).child y = a.child y := by
  fun_induction Arena.chain a ids with
  | case1 => rfl
  | case2 => exact child_setSibling ..
  | case3 a id next more ih => rw [ih, child_setSibling]

/-- Chaining changes the siblings of the chained nodes only. -/
theorem sibling_chain_of_not_mem (a : Arena) {ids : List Nat} (hlt : ∀ id ∈ ids, id < a.size)
    {y : Nat} (hy : y ∉ ids) : (a.chain ids).sibling y = a.sibling y := by
  fun_induction Arena.chain a ids with
  | case1 => rfl
  | case2 a id =>
    rw [sibling_setSibling (hlt id List.mem_cons_self), if_neg (List.ne_of_not_mem_cons hy)]
  | case3 a id next more ih =>
    obtain ⟨hid, hmore⟩ := List.forall_mem_cons.1 hlt
    rw [ih (by simpa using hmore) (List.not_mem_of_not_mem_cons hy), sibling_setSibling hid,
      if_neg (List.ne_of_not_mem_cons hy)]

/-- Chaining distinct nodes makes a chain of them. -/
theorem chain_chain (a : Arena) {ids : List Nat} (hlt : ∀ id ∈ ids, id < a.size)
    (hnodup : ids.Nodup) : (a.chain ids).Chain ids.head? ids := by
  fun_induction Arena.chain a ids with
  | case1 => exact rfl
  | case2 a id =>
    refine ⟨rfl, ?_⟩
    rw [sibling_setSibling (hlt id List.mem_cons_self), if_pos rfl]
    exact rfl
  | case3 a id next more ih =>
    obtain ⟨hid, hmore⟩ := List.forall_mem_cons.1 hlt
    obtain ⟨hfresh, hnodup⟩ := List.nodup_cons.1 hnodup
    have hmore' : ∀ y ∈ next :: more, y < (a.setSibling id (some next)).size := by simpa using hmore
    refine ⟨rfl, ?_⟩
    rw [sibling_chain_of_not_mem _ hmore' hfresh, sibling_setSibling hid, if_pos rfl]
    exact ih hmore' hnodup

/-! ### Children -/

@[simp] theorem size_setChildren (a : Arena) (id : Nat) (ids : List Nat) :
    (a.setChildren id ids).size = a.size := by
  rw [setChildren, size_chain, size_setChild]

@[simp] theorem root_setChildren (a : Arena) (id : Nat) (ids : List Nat) :
    (a.setChildren id ids).root = a.root := by
  rw [setChildren, root_chain, root_setChild]

@[simp] theorem standardized_setChildren (a : Arena) (id : Nat) (ids : List Nat) :
    (a.setChildren id ids).standardized = a.standardized := by
  rw [setChildren, standardized_chain]
  rfl

@[simp] theorem label_setChildren (a : Arena) (id : Nat) (ids : List Nat) (y : Nat) :
    (a.setChildren id ids).label y = a.label y := by
  rw [setChildren, label_chain, label_setChild]

/-- A node with new children is linked to the first of them. -/
theorem child_setChildren {id : Nat} (h : id < a.size) (ids : List Nat) (y : Nat) :
    (a.setChildren id ids).child y = if y = id then ids.head? else a.child y := by
  rw [setChildren, child_chain, child_setChild h]

/-- Only the new children of a node get other siblings. -/
theorem sibling_setChildren_of_not_mem {id : Nat} {ids : List Nat}
    (hlt : ∀ i ∈ ids, i < a.size) {y : Nat} (hy : y ∉ ids) :
    (a.setChildren id ids).sibling y = a.sibling y := by
  rw [setChildren, sibling_chain_of_not_mem _ (by simpa using hlt) hy, sibling_setChild]

/-- Setting the children changes the node and the children only. -/
theorem node_setChildren_of_not_mem {id : Nat} {ids : List Nat} (h : id < a.size)
    (hlt : ∀ i ∈ ids, i < a.size) {y : Nat} (hy : y ∉ id :: ids) :
    (a.setChildren id ids).node y = a.node y := by
  obtain ⟨hid, hids⟩ := List.ne_and_not_mem_of_not_mem_cons hy
  rw [node_eq_iff, label_setChildren, child_setChildren h, if_neg hid,
    sibling_setChildren_of_not_mem hlt hids]
  exact ⟨rfl, rfl, rfl⟩

/-- Two nodes become the children. -/
theorem sibling_setChildren_pair {i₁ i₂ : Nat} (h₁ : i₁ < a.size) (h₂ : i₂ < a.size) (id y : Nat) :
    (a.setChildren id [i₁, i₂]).sibling y =
      if y = i₂ then none else if y = i₁ then some i₂ else a.sibling y := by
  rw [setChildren, chain, chain, sibling_setSibling (by simpa using h₂),
    sibling_setSibling (by simpa using h₁), sibling_setChild]

/-- The nodes become the children. -/
theorem chain_setChildren {id : Nat} (h : id < a.size) {ids : List Nat}
    (hlt : ∀ i ∈ ids, i < a.size) (hnodup : ids.Nodup) :
    (a.setChildren id ids).Chain ((a.setChildren id ids).child id) ids := by
  rw [child_setChildren h, if_pos rfl]
  exact chain_chain _ (by simpa using hlt) hnodup

/-! ### Unfolding -/

mutual

/-- The node at place `id` unfolds to the tree, with all nodes in the region `F`. -/
def Unfolds (a : Arena) (F : Set Nat) : Tree Label → Nat → Prop
  | .node l ts, id => id ∈ F ∧ id < a.size ∧ a.label id = l ∧ a.UnfoldsAll F ts (a.child id)

/-- The link leads to siblings that unfold to the trees, with all nodes in the region `F`. -/
def UnfoldsAll (a : Arena) (F : Set Nat) : List (Tree Label) → Option Nat → Prop
  | [], link => link = none
  | t :: ts, link => ∃ id, link = some id ∧ a.Unfolds F t id ∧ a.UnfoldsAll F ts (a.sibling id)

end

end Rpal.Arena
