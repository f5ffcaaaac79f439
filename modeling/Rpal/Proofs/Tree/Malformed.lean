import Rpal.Arena.Standardize

/-!
# Malformed trees

The rules of standardization want nodes of certain shapes: so many children, and equations where
there have to be definitions. Children have their final form when the rule for a node is applied, so
that a definition of any kind is an equation with two sides by then.

What is wrong with a tree is found in the order in which the rules are applied, every node after its
children.

## Key results

- `Tree.defect?`: what is wrong with a node whose children are well-formed
- `Tree.fault?`: the first node of a tree with which something is wrong
-/

namespace Rpal

/-- What is wrong with a node, if anything. Of each of its standardized children it is known whether
    it is an equation with two sides. -/
def Kind.defect? (kind : Kind) (equations : List Bool) : Option Defect :=
  match kind, equations with
  | .letIn, [] => some .noDefinition
  | .letIn, false :: _ => some .noEquation
  | .letIn, [true] => some .noBody
  | .whereIn, [] => some .noBody
  | .whereIn, [_] => some .noDefinition
  | .whereIn, _ :: false :: _ => some .noEquation
  | .functionForm, [] => some .noFunctionName
  | .functionForm, [_] => some .noParameter
  | .functionForm, [_, _] => some .noBody
  | .lambda, [] => some .noParameter
  | .lambda, [_] => some .noBody
  | .atName, [] => some .noLeftOperand
  | .atName, [_] => some .noOperatorName
  | .atName, [_, _] => some .noRightOperand
  | .within, true :: true :: _ => none
  | .within, _ => some .notTwoEquations
  | .simultaneous, [] => some .noDefinitions
  | .simultaneous, es => if es.all id then none else some .notAllEquations
  | .recursive, [] => some .noDefinition
  | .recursive, false :: _ => some .noEquation
  | _, _ => none

/-- A node with `count` children is an equation with two sides after the rule for its construct. -/
def Kind.makesEquation (kind : Kind) (count : Nat) : Bool :=
  match kind with
  | .equation => 2 ≤ count
  | .functionForm | .within | .simultaneous | .recursive => true
  | _ => false

/-- The construct that an error names. The rule for `where` makes the node a `let` before it looks
    for an equation. -/
def Kind.reported (kind : Kind) (defect : Defect) : Kind :=
  if kind = .whereIn ∧ defect = .noEquation then .letIn else kind

/-- The error about a node with this label. -/
def Label.malformed (l : Label) (defect : Defect) : StandardizeError :=
  .malformed (l.kind.reported defect) l.line defect

namespace Tree

mutual

/-- The subtrees of a tree in the order in which the rules are applied, each after those below it. -/
def postorder : Tree Label → List (Tree Label)
  | node l ts => postorderAll ts ++ [node l ts]

/-- `postorder` on a list of trees. -/
def postorderAll : List (Tree Label) → List (Tree Label)
  | [] => []
  | t :: ts => t.postorder ++ postorderAll ts

end

/-- The tree is an equation with two sides in its final form. -/
def isDefinition : Tree Label → Bool
  | node l ts => l.kind.makesEquation ts.length

/-- What is wrong with the root of a tree whose children have their final form. -/
def defect? : Tree Label → Option Defect
  | node l ts => l.kind.defect? (ts.map isDefinition)

/-- The first of the trees with which something is wrong, and what. -/
def firstFault? (ts : List (Tree Label)) : Option (Tree Label × Defect) :=
  ts.findSome? fun t => t.defect?.map (t, ·)

/-- The first node at which the rules stop, and why. -/
def fault? (t : Tree Label) : Option (Tree Label × Defect) :=
  firstFault? t.postorder

variable {l : Label} {t u : Tree Label} {ts : List (Tree Label)} {d : Defect}

/-- The first fault of two lists of trees is in the first one, if that has one. -/
theorem firstFault?_append (ts us : List (Tree Label)) :
    firstFault? (ts ++ us) = (firstFault? ts).or (firstFault? us) :=
  List.findSome?_append

/-- The root is looked at last. -/
theorem fault?_node (l : Label) (ts : List (Tree Label)) : (node l ts).fault? =
    (firstFault? (postorderAll ts)).or ((node l ts).defect?.map (node l ts, ·)) := by
  rw [fault?, postorder, firstFault?_append]
  simp [firstFault?]

/-- Something is wrong with the first tree in the list that has a defect. -/
theorem firstFault?_eq_some_iff : firstFault? ts = some (u, d) ↔
    ∃ before behind, ts = before ++ u :: behind ∧ (∀ t ∈ before, t.defect? = none) ∧
      u.defect? = some d := by
  rw [firstFault?, List.findSome?_eq_some_iff]
  constructor
  · rintro ⟨before, t, behind, rfl, ht, hbefore⟩
    obtain ⟨d', hd, heq⟩ := Option.map_eq_some_iff.1 ht
    obtain ⟨rfl, rfl⟩ := Prod.mk.injEq .. ▸ heq
    exact ⟨before, behind, rfl, fun v hv => Option.map_eq_none_iff.1 (hbefore v hv), hd⟩
  · rintro ⟨before, behind, rfl, hbefore, hu⟩
    refine ⟨before, u, behind, rfl, by rw [hu, Option.map_some], fun v hv => ?_⟩
    rw [hbefore v hv, Option.map_none]

end Tree

end Rpal
