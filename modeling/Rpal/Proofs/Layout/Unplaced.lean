import Rpal.Arena.Basic
import Rpal.Tree.Printer
import Mathlib

/-!
# Trees and arenas without lines

Labels carry the line that they were read on. Without it, trees and arenas are printed as before,
and whatever is done to an arena can be done without lines: nodes are found, added and linked in the
same places.

## Key results

- `Tree.render_unplaced`, `Tree.outline_unplaced`: printing does not show lines
- `Arena.children_unplaced`, `Arena.tree_unplaced`: what is read from an arena
- `Arena.setChildren_unplaced`, `Arena.ofTree_unplaced`: what is done to an arena
-/

/-- Replacing the members of an array, and the default that stands for those beyond its end. -/
theorem Array.getD_map_of_eq {α β : Type} {f : α → β} {a : α} {b : β} (h : f a = b) (xs : Array α)
    (i : Nat) : (xs.map f).getD i b = f (xs.getD i a) := by
  rw [Array.getD_eq_getD_getElem?, Array.getD_eq_getD_getElem?, Array.getElem?_map, ← h,
    Option.getD_map]

/-- Changing a member of an array and replacing all members. -/
theorem Array.map_modify_of_comm {α β : Type} {f : α → β} {g : α → α} {g' : β → β}
    (h : ∀ a, f (g a) = g' (f a)) (xs : Array α) (i : Nat) :
    (xs.modify i g).map f = (xs.map f).modify i g' := by
  apply Array.ext
  · simp only [Array.size_map, Array.size_modify]
  · intro j hj _
    simp only [Array.getElem_map, Array.getElem_modify]
    split
    · exact h _
    · rfl

namespace Rpal

/-- The label without its line. -/
def Label.unplaced (l : Label) : Label :=
  { l with line := 0 }

/-- The tree without lines. -/
def Tree.unplaced (t : Tree Label) : Tree Label :=
  t.map Label.unplaced

/-- The node without its line. -/
def Node.unplaced (n : Node) : Node :=
  { n with label := n.label.unplaced }

/-- The arena without lines. -/
def Arena.unplaced (a : Arena) : Arena :=
  { a with nodes := a.nodes.map Node.unplaced }

/-! ### Trees -/

namespace Tree

/-- Labels are replaced one time after the other, or at once. -/
theorem map_map {α β γ : Type} (f : α → β) (g : β → γ) (t : Tree α) :
    (t.map f).map g = t.map (g ∘ f) := by
  induction t using Tree.induct with
  | node a ts ih =>
    have hts : ts.map (map g ∘ map f) = ts.map (map (g ∘ f)) := List.map_congr_left ih
    rw [map, map, map, mapAll_eq_map, mapAll_eq_map, mapAll_eq_map, List.map_map, hts]
    rfl

mutual

/-- Lines are not shown in a tree. -/
theorem render_unplaced : ∀ t : Tree Label, t.unplaced.render = t.render
  | .node _ [] => rfl
  | .node l (t :: ts) => by
    have hhead : (t.map Label.unplaced).render = t.render := render_unplaced t
    rw [unplaced, map, mapAll, render, render, hhead, renderMore_unplaced ts]
    rfl

/-- Lines are not shown in a list of trees. -/
theorem renderMore_unplaced : ∀ ts : List (Tree Label),
    renderMore (mapAll Label.unplaced ts) = renderMore ts
  | [] => rfl
  | t :: ts => by
    have hhead : (t.map Label.unplaced).render = t.render := render_unplaced t
    rw [mapAll, renderMore, renderMore, hhead, renderMore_unplaced ts]

end

mutual

/-- Lines are not shown in the outline of a tree. -/
theorem outlineAt_unplaced : ∀ (depth : Nat) (t : Tree Label),
    t.unplaced.outlineAt depth = t.outlineAt depth
  | depth, .node l ts => by
    rw [unplaced, map, outlineAt, outlineAt, outlineAllAt_unplaced (depth + 1) ts]
    rfl

/-- Lines are not shown in the outline of a list of trees. -/
theorem outlineAllAt_unplaced : ∀ (depth : Nat) (ts : List (Tree Label)),
    outlineAllAt depth (mapAll Label.unplaced ts) = outlineAllAt depth ts
  | _, [] => rfl
  | depth, t :: ts => by
    have hhead : (t.map Label.unplaced).outlineAt depth = t.outlineAt depth :=
      outlineAt_unplaced depth t
    rw [mapAll, outlineAllAt, outlineAllAt, hhead, outlineAllAt_unplaced depth ts]

end

/-- Lines are not shown in the whole outline. -/
theorem outline_unplaced (t : Tree Label) : t.unplaced.outline = t.outline :=
  outlineAt_unplaced 0 t

/-- A branch takes its line from its first child, and has none if that has none. -/
theorem branch_unplaced (kind : Kind) (ts : List (Tree Label)) :
    (branch kind ts).unplaced = branch kind (ts.map unplaced) := by
  rw [branch, unplaced, map, mapAll_eq_map]
  cases ts with
  | nil => rfl
  | cons t ts =>
    cases t
    rfl

end Tree

namespace Arena

variable (a : Arena)

/-! ### What is read from an arena -/

@[simp] theorem size_unplaced : a.unplaced.size = a.size :=
  Array.size_map

@[simp] theorem node_unplaced (id : Nat) : a.unplaced.node id = (a.node id).unplaced :=
  Array.getD_map_of_eq (f := Node.unplaced) (a := default) rfl a.nodes id

@[simp] theorem label_unplaced (id : Nat) : a.unplaced.label id = (a.label id).unplaced := by
  rw [label, node_unplaced]
  rfl

@[simp] theorem kind_unplaced (id : Nat) : a.unplaced.kind id = a.kind id := by
  rw [kind, label_unplaced]
  rfl

/-- Without lines, every node is on line 0. -/
@[simp] theorem line_unplaced (id : Nat) : a.unplaced.line id = 0 := by
  rw [line, label_unplaced]
  rfl

@[simp] theorem child_unplaced (id : Nat) : a.unplaced.child id = a.child id := by
  rw [child, node_unplaced]
  rfl

@[simp] theorem sibling_unplaced (id : Nat) : a.unplaced.sibling id = a.sibling id := by
  rw [sibling, node_unplaced]
  rfl

/-- Chains of siblings stay without lines. -/
theorem siblings_unplaced (n : Nat) (link : Option Nat) :
    a.unplaced.siblings n link = a.siblings n link := by
  induction n generalizing link with
  | zero => rfl
  | succ n ih =>
    cases link with
    | none => rfl
    | some id => rw [siblings, siblings, sibling_unplaced, ih]

@[simp] theorem children_unplaced (id : Nat) : a.unplaced.children id = a.children id := by
  rw [children, size_unplaced, child_unplaced, siblings_unplaced]
  rfl

/-- The shape of the nodes stays without lines. -/
theorem shapeTo_unplaced (depth : Nat) : a.unplaced.shapeTo depth = a.shapeTo depth := by
  induction depth with
  | zero => rfl
  | succ depth ih =>
    funext id
    rw [shapeTo, shapeTo, children_unplaced, ih]

/-- The tree of the arena has the same nodes in the same places. -/
theorem tree_unplaced (id : Nat) : a.unplaced.tree id = (a.tree id).unplaced := by
  have hshape : a.unplaced.shape id = a.shape id := by
    rw [shape, size_unplaced, shapeTo_unplaced]
    rfl
  rw [tree, tree, hshape, Tree.unplaced, Tree.map_map]
  exact congrArg (Tree.map · (a.shape id)) (funext a.label_unplaced)

/-- The tree at the root loses its lines. -/
theorem rootTree?_unplaced : a.unplaced.rootTree? = a.rootTree?.map Tree.unplaced := by
  rw [rootTree?, rootTree?, Option.map_map]
  exact congrArg (Option.map · a.root) (funext a.tree_unplaced)

/-! ### What is done to an arena -/

@[simp] theorem alloc_unplaced (l : Label) : (a.alloc l).unplaced = a.unplaced.alloc l.unplaced := by
  simp only [alloc, unplaced, Array.map_push, Node.unplaced]

/-- A node can be changed before or after lines are forgotten, if the change commutes with that. -/
theorem modify_unplaced (id : Nat) {f : Node → Node} (hf : ∀ n, (f n).unplaced = f n.unplaced) :
    (a.modify id f).unplaced = a.unplaced.modify id f := by
  simp only [modify, unplaced, Array.map_modify_of_comm hf]

@[simp] theorem setChild_unplaced (id : Nat) (target : Option Nat) :
    (a.setChild id target).unplaced = a.unplaced.setChild id target :=
  a.modify_unplaced id fun _ => rfl

@[simp] theorem setSibling_unplaced (id : Nat) (target : Option Nat) :
    (a.setSibling id target).unplaced = a.unplaced.setSibling id target :=
  a.modify_unplaced id fun _ => rfl

@[simp] theorem setKind_unplaced (id : Nat) (kind : Kind) :
    (a.setKind id kind).unplaced = a.unplaced.setKind id kind :=
  a.modify_unplaced id fun _ => rfl

/-- Nodes can be chained before or after lines are forgotten. -/
theorem chain_unplaced (ids : List Nat) : (a.chain ids).unplaced = a.unplaced.chain ids := by
  fun_induction chain a ids with
  | case1 a => rfl
  | case2 a id => exact a.setSibling_unplaced id none
  | case3 a id next more ih => rw [ih, setSibling_unplaced, chain]

@[simp] theorem setChildren_unplaced (id : Nat) (ids : List Nat) :
    (a.setChildren id ids).unplaced = a.unplaced.setChildren id ids := by
  rw [setChildren, chain_unplaced, setChild_unplaced]
  rfl

@[simp] theorem nextId_unplaced : a.unplaced.nextId = a.nextId :=
  a.size_unplaced

mutual

/-- A tree is added in the same places. -/
theorem graft_unplaced : ∀ (a : Arena) (t : Tree Label),
    a.unplaced.graft t.unplaced = ((a.graft t).1, (a.graft t).2.unplaced)
  | a, .node l ts => by
    -- the children are added before the node itself, whose place is behind them
    have hts := graftAll_unplaced a ts
    rw [Tree.unplaced, Tree.map, graft, graft, hts]
    simp only [nextId_unplaced, setChildren_unplaced, alloc_unplaced]

/-- Trees can be added before or after lines are forgotten. -/
theorem graftAll_unplaced : ∀ (a : Arena) (ts : List (Tree Label)),
    a.unplaced.graftAll (Tree.mapAll Label.unplaced ts) =
      ((a.graftAll ts).1, (a.graftAll ts).2.unplaced)
  | _, [] => rfl
  | a, t :: ts => by
    have ht : a.unplaced.graft (t.map Label.unplaced) = _ := graft_unplaced a t
    rw [Tree.mapAll, graftAll, graftAll, ht]
    simp only [graftAll_unplaced _ ts]

end

/-- The arena of a tree without lines. -/
theorem ofTree_unplaced (t : Tree Label) : ofTree t.unplaced = (ofTree t).unplaced := by
  have hempty : empty.unplaced = empty := by simp only [empty, unplaced, List.map_toArray, List.map_nil]
  have hgraft := graft_unplaced empty t
  rw [hempty] at hgraft
  rw [ofTree, hgraft]
  rfl

end Arena

end Rpal
