/-!
# Ordered trees

Finite trees with labelled nodes, each with an ordered list of children.
-/

namespace Rpal

/-- An ordered tree with labels in `α`. -/
inductive Tree (α : Type) where
  | node (label : α) (children : List (Tree α))
deriving Inhabited

namespace Tree

variable {α β : Type}

/-- The label of the root. -/
def label : Tree α → α
  | node a _ => a

/-- The subtrees below the root, in order. -/
def children : Tree α → List (Tree α)
  | node _ ts => ts

/-- A tree without children. -/
def leaf (a : α) : Tree α :=
  node a []

mutual

/-- The number of nodes. -/
def size : Tree α → Nat
  | node _ ts => 1 + sizeAll ts

/-- The number of nodes of a list of trees. -/
def sizeAll : List (Tree α) → Nat
  | [] => 0
  | t :: ts => t.size + sizeAll ts

end

mutual

/-- The tree with every label replaced by its image under `f`. -/
def map (f : α → β) : Tree α → Tree β
  | node a ts => node (f a) (mapAll f ts)

/-- `map` on a list of trees. -/
def mapAll (f : α → β) : List (Tree α) → List (Tree β)
  | [] => []
  | t :: ts => t.map f :: mapAll f ts

end

mutual

/-- The labels, each node before its children. -/
def preorder : Tree α → List α
  | node a ts => a :: preorderAll ts

/-- The labels of a list of trees, one tree after the other. -/
def preorderAll : List (Tree α) → List α
  | [] => []
  | t :: ts => t.preorder ++ preorderAll ts

end

/-- What holds of a node as soon as it holds of its children holds of every tree. -/
theorem induct {motive : Tree α → Prop}
    (node : ∀ a ts, (∀ t ∈ ts, motive t) → motive (node a ts)) (t : Tree α) : motive t :=
  Tree.rec (motive_1 := motive) (motive_2 := fun ts => ∀ t ∈ ts, motive t)
    node (fun _ h => nomatch h)
    (fun _ _ hhead htail _ h => by
      rcases List.mem_cons.1 h with rfl | h
      · exact hhead
      · exact htail _ h)
    t

@[simp] theorem mapAll_eq_map (f : α → β) (ts : List (Tree α)) : mapAll f ts = ts.map (map f) := by
  induction ts with
  | nil => rfl
  | cons t ts ih => simp [mapAll, ih]

@[simp] theorem preorderAll_eq_flatMap (ts : List (Tree α)) :
    preorderAll ts = ts.flatMap preorder := by
  induction ts with
  | nil => rfl
  | cons t ts ih => simp [preorderAll, ih]

/-- A tree has as many nodes as labels in its listing. -/
theorem length_preorder (t : Tree α) : t.preorder.length = t.size := by
  refine Tree.rec (motive_1 := fun t => t.preorder.length = t.size)
    (motive_2 := fun ts => (preorderAll ts).length = sizeAll ts) ?_ rfl ?_ t
  · intro a ts ih
    rw [preorder, size, List.length_cons, ih, Nat.add_comm]
  · intro t ts hhead htail
    rw [preorderAll, sizeAll, List.length_append, hhead, htail]

/-- Renaming the labels does not change the number of nodes. -/
@[simp] theorem size_map (f : α → β) (t : Tree α) : (t.map f).size = t.size := by
  refine Tree.rec (motive_1 := fun t => (t.map f).size = t.size)
    (motive_2 := fun ts => sizeAll (mapAll f ts) = sizeAll ts) ?_ rfl ?_ t
  · intro a ts ih
    rw [map, size, size, ih]
  · intro t ts hhead htail
    rw [mapAll, sizeAll, sizeAll, hhead, htail]

end Tree

end Rpal
