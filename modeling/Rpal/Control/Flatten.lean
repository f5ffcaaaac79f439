import Rpal.Control.Basic

/-!
# From a standardized tree to control structures

A tree is flattened in preorder. A lambda becomes one item, and its body is flattened later, after
the bodies of the lambdas met before it: the deltas are numbered in the order in which their lambdas
are met. The branches of a conditional are flattened apart, and the item for them comes before those
of the condition.
-/

namespace Rpal

/-- A part that a construct needs and does not have. -/
inductive MissingPart where
  | parameter
  | body
  | branches
deriving DecidableEq, Inhabited

namespace MissingPart

/-- The part as a message names it. -/
def describe : MissingPart → String
  | parameter => "parameter"
  | body => "body"
  | branches => "condition or branches"

end MissingPart

/-- Why a tree has no control structures. -/
inductive BuildError where
  | notStandardized
  | emptyTree
  /-- A construct that a standardized tree does not have. -/
  | unexpectedConstruct (construct : Kind) (line : Nat)
  | malformed (construct : Kind) (part : MissingPart) (line : Nat)
  /-- A parameter that is neither a name nor a list of names. -/
  | badParameter (found : Kind) (line : Nat)
deriving DecidableEq, Inhabited

namespace BuildError

/-- The error as text. -/
def message : BuildError → String
  | notStandardized => "tree has not been standardized"
  | emptyTree => "tree is empty"
  | unexpectedConstruct construct line =>
    "line " ++ toString line ++ ": '" ++ construct.symbol ++
      "' should have been removed by standardization"
  | malformed construct part line =>
    "line " ++ toString line ++ ": '" ++ construct.symbol ++ "' is missing its " ++ part.describe
  | badParameter found line =>
    "line " ++ toString line ++ ": a lambda can't bind '" ++ found.symbol ++ "'"

end BuildError

/-- Control structures in the making: `pending` are the places of the bodies of the last deltas,
    still to be flattened, in order. -/
structure ControlDraft where
  control : Control
  pending : List Nat
deriving Inhabited

namespace ControlDraft

/-- The draft without deltas. -/
def empty : ControlDraft :=
  { control := { deltas := #[], betas := #[] }, pending := [] }

/-- Adds a delta whose body is still to be flattened. -/
def addDelta (d : ControlDraft) (vars : List String) (line body : Nat) : ControlDraft :=
  let delta : Delta := { index := d.control.deltas.size, vars, line, body := [] }
  { control := { d.control with deltas := d.control.deltas.push delta }
    pending := d.pending ++ [body] }

/-- Adds a beta. -/
def addBeta (d : ControlDraft) (b : Beta) : ControlDraft :=
  { d with control := { d.control with betas := d.control.betas.push b } }

/-- Fills in the body of a delta. -/
def setBody (d : ControlDraft) (index : Nat) (body : List ControlItem) : ControlDraft :=
  { d with
    control :=
      { d.control with
        deltas := d.control.deltas.modify index fun delta => { delta with body } } }

end ControlDraft

/-- A step in the making of control structures. -/
abbrev Flattening (α : Type) : Type :=
  StateT ControlDraft (Except BuildError) α

namespace Flattening

/-- The construct is one that standardization removes, or a parameter. -/
def isRemoved : Kind → Bool
  | .letIn | .whereIn | .within | .simultaneous | .recursive | .functionForm | .atName
  | .equation | .names | .unit => true
  | _ => false

section

variable (a : Arena)

/-- The name that a parameter or a part of one is. -/
def boundName (id : Nat) : Except BuildError String :=
  if a.kind id = .identifier then .ok (a.label id).content
  else .error (.badParameter (a.kind id) (a.line id))

/-- The names that a parameter binds. -/
def boundNames (id : Nat) : Except BuildError (List String) :=
  match a.kind id with
  | .unit => .ok []
  | .names => (a.children id).mapM (boundName a)
  | _ => do return [← boundName a id]

/-- Adds the delta of a lambda and returns its number. -/
def newDelta (vars : List String) (body : Nat) : Flattening Nat := do
  let index := (← get).control.deltas.size
  modify (·.addDelta vars (a.line body) body)
  return index

/-- Adds the beta of a conditional and returns its number. -/
def newBeta (b : Beta) : Flattening Nat := do
  let index := (← get).control.betas.size
  modify (·.addBeta b)
  return index

/-- The item of the lambda at place `id`. -/
def lambdaItem (id : Nat) : Flattening ControlItem := do
  match a.child id with
  | none => throw (.malformed (a.kind id) .parameter (a.line id))
  | some parameter =>
    match a.sibling parameter with
    | none => throw (.malformed (a.kind id) .body (a.line id))
    | some body =>
      let vars ← boundNames a parameter
      return .delta (← newDelta a vars body)

/-- Puts the items of the nodes below `id`, down to `depth` levels, in front of the items `before`
    them: the last item comes first. -/
def items : Nat → List ControlItem → Nat → Flattening (List ControlItem)
  | 0, before, _ => return before
  | depth + 1, before, id =>
    match a.kind id with
    | .lambda => return (← lambdaItem a id) :: before
    | .conditional =>
      match a.children id with
      | condition :: first :: second :: _ => do
        -- the branches have their numbers before the conditional, and the condition has them after it
        let whenTrue := (← items depth [] first).reverse
        let whenFalse := (← items depth [] second).reverse
        let index ← newBeta { line := a.line id, whenTrue, whenFalse }
        items depth (.beta index :: before) condition
      | _ => throw (.malformed (a.kind id) .branches (a.line id))
    | kind =>
      if isRemoved kind then throw (.unexpectedConstruct kind (a.line id))
      else (a.children id).foldlM (items depth) (.node id :: before)

/-- Flattens up to `n` pending bodies, the first of which belongs to delta `index`. -/
def bodies : Nat → Nat → Flattening Unit
  | 0, _ => return
  | n + 1, index => do
    match (← get).pending with
    | [] => return
    | body :: more =>
      modify fun d => { d with pending := more }
      -- the bodies met in this one are pending behind the others
      let last ← items a a.size [] body
      modify (·.setBody index last.reverse)
      bodies n (index + 1)

/-- Flattens the tree at place `root` and the bodies of all lambdas in it. A node has two links, so
    that the tree has fewer than `2 ^ a.size` nodes even if the arena shares some of them. -/
def program (root : Nat) : Flattening Unit := do
  let _ ← newDelta a [] root
  bodies a (Nat.pow 2 a.size) 0

end

end Flattening

namespace Arena

/-- The control structures of the arena's tree. -/
def control (a : Arena) : Except BuildError Control :=
  if a.standardized then
    match a.root with
    | none => .error .emptyTree
    | some root =>
      ((Flattening.program a root).run .empty).map (·.2.control)
  else
    .error .notStandardized

end Arena

end Rpal
