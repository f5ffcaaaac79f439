import Rpal.Tree.Kind

/-!
# Trees in an arena

An arena is a table of linked nodes. A node has a link to its first child and a link to its next
sibling, so that a whole subtree is moved by setting a link. Nodes are known by their place in the
table and are never removed.

What a node stands for is a tree: `Arena.shape` follows the links and returns the places, and
`Arena.tree` the labels found there. In the other direction, `Arena.graft` adds the nodes of a tree,
each after its children.
-/

namespace Rpal

/-- A labelled node with its links. -/
structure Node where
  label : Label
  child : Option Nat
  sibling : Option Nat
deriving DecidableEq, Inhabited

/-- A table of nodes, with the root of the program's tree if there is one. The mark `standardized`
    says that the tree has its canonical form. -/
structure Arena where
  nodes : Array Node
  root : Option Nat
  standardized : Bool
deriving Inhabited

namespace Arena

/-- The arena without nodes. -/
def empty : Arena :=
  { nodes := #[], root := none, standardized := false }

/-- The number of nodes. -/
def size (a : Arena) : Nat :=
  a.nodes.size

/-- The node at place `id`. -/
def node (a : Arena) (id : Nat) : Node :=
  a.nodes.getD id default

/-- The label of the node at place `id`. -/
def label (a : Arena) (id : Nat) : Label :=
  (a.node id).label

/-- The construct of the node at place `id`. -/
def kind (a : Arena) (id : Nat) : Kind :=
  (a.label id).kind

/-- The line of the node at place `id`. -/
def line (a : Arena) (id : Nat) : Nat :=
  (a.label id).line

/-- The first child of the node at place `id`. -/
def child (a : Arena) (id : Nat) : Option Nat :=
  (a.node id).child

/-- The next sibling of the node at place `id`. -/
def sibling (a : Arena) (id : Nat) : Option Nat :=
  (a.node id).sibling

/-! ### Changing an arena -/

/-- The place that the next node gets. -/
def nextId (a : Arena) : Nat :=
  a.nodes.size

/-- Adds a node without links. -/
def alloc (a : Arena) (l : Label) : Arena :=
  { a with nodes := a.nodes.push { label := l, child := none, sibling := none } }

/-- Changes the node at place `id`. -/
def modify (a : Arena) (id : Nat) (f : Node → Node) : Arena :=
  { a with nodes := a.nodes.modify id f }

/-- Sets the first child of the node at place `id`. -/
def setChild (a : Arena) (id : Nat) (target : Option Nat) : Arena :=
  a.modify id fun n => { n with child := target }

/-- Sets the next sibling of the node at place `id`. -/
def setSibling (a : Arena) (id : Nat) (target : Option Nat) : Arena :=
  a.modify id fun n => { n with sibling := target }

/-- Sets the construct of the node at place `id`. -/
def setKind (a : Arena) (id : Nat) (kind : Kind) : Arena :=
  a.modify id fun n => { n with label := { n.label with kind } }

/-- Makes the nodes siblings, each of the one before it. The last has no sibling. -/
def chain (a : Arena) : List Nat → Arena
  | [] => a
  | [id] => a.setSibling id none
  | id :: next :: more => (a.setSibling id (some next)).chain (next :: more)

/-- Makes `ids` the children of the node at place `id`. -/
def setChildren (a : Arena) (id : Nat) (ids : List Nat) : Arena :=
  (a.setChild id ids.head?).chain ids

/-- Adds a node over `ids` that is on the line of the first of them. -/
def allocOver (a : Arena) (kind : Kind) (ids : List Nat) : Arena :=
  let line := (ids.head?.map a.line).getD 0
  (a.alloc { kind, text := none, line }).setChildren a.nextId ids

@[simp] theorem size_alloc (a : Arena) (l : Label) : (a.alloc l).size = a.size + 1 := by
  simp [alloc, size]

@[simp] theorem size_modify (a : Arena) (id : Nat) (f : Node → Node) :
    (a.modify id f).size = a.size := by
  simp [modify, size]

/-- A new node has its label and no links. -/
@[simp] theorem node_alloc_nextId (a : Arena) (l : Label) :
    (a.alloc l).node a.nextId = { label := l, child := none, sibling := none } := by
  simp [alloc, node, nextId]

/-- A new node leaves the others as they are. -/
theorem node_alloc_of_lt {a : Arena} {id : Nat} (l : Label) (h : id < a.size) :
    (a.alloc l).node id = a.node id := by
  simp only [size] at h
  have hlt : id < a.nodes.size + 1 := by omega
  simp [alloc, node, Array.getD, h, hlt, Array.getElem_push_lt]

/-- A change of a node is seen at its place. -/
theorem node_modify_self {a : Arena} {id : Nat} (f : Node → Node) (h : id < a.size) :
    (a.modify id f).node id = f (a.node id) := by
  simp only [size] at h
  simp [modify, node, Array.getD, h, Array.getElem_modify]

/-- A change of a node is seen at no other place. -/
theorem node_modify_of_ne {a : Arena} {id other : Nat} (f : Node → Node) (h : id ≠ other) :
    (a.modify id f).node other = a.node other := by
  by_cases hlt : other < a.nodes.size
  · simp [modify, node, Array.getD, hlt, Array.getElem_modify, h]
  · simp [modify, node, Array.getD, hlt]

/-! ### Reading an arena -/

/-- Up to `n` nodes of a chain of siblings. -/
def siblings (a : Arena) : Nat → Option Nat → List Nat
  | 0, _ => []
  | _ + 1, none => []
  | n + 1, some id => id :: a.siblings n (a.sibling id)

/-- The children of the node at place `id`, in order. -/
def children (a : Arena) (id : Nat) : List Nat :=
  a.siblings a.size (a.child id)

/-- The places of the nodes below `id`, down to `depth` levels. -/
def shapeTo (a : Arena) : Nat → Nat → Tree Nat
  | 0, id => .leaf id
  | depth + 1, id => .node id ((a.children id).map (a.shapeTo depth))

/-- The places of the nodes of the tree at place `id`. -/
def shape (a : Arena) (id : Nat) : Tree Nat :=
  a.shapeTo a.size id

/-- The tree at place `id`. -/
def tree (a : Arena) (id : Nat) : Tree Label :=
  (a.shape id).map a.label

/-- The tree at the root. -/
def rootTree? (a : Arena) : Option (Tree Label) :=
  a.root.map a.tree

/-! ### Adding trees -/

mutual

/-- Adds the nodes of a tree, each after its children, and returns the place of its root. -/
def graft (a : Arena) : Tree Label → Nat × Arena
  | .node l ts =>
    let (ids, a) := a.graftAll ts
    (a.nextId, (a.alloc l).setChildren a.nextId ids)

/-- Adds the nodes of several trees, one tree after the other. -/
def graftAll (a : Arena) : List (Tree Label) → List Nat × Arena
  | [] => ([], a)
  | t :: ts =>
    let (id, a) := a.graft t
    let (ids, a) := a.graftAll ts
    (id :: ids, a)

end

/-- The arena that holds one tree and nothing else. -/
def ofTree (t : Tree Label) : Arena :=
  let (id, a) := empty.graft t
  { a with root := some id }

end Arena

end Rpal
