import Rpal.Arena.Basic

/-!
# Standardization

A program's tree is brought into a form that has only lambdas and applications in place of
definitions. The tree is changed in place, every node after its children:

* `let (X = E₁) E₂` and `E₂ where (X = E₁)` become `gamma (lambda X E₂) E₁`;
* `function_form P V₁ … Vₙ E` becomes `= P (lambda V₁ … (lambda Vₙ E))`;
* `lambda V₁ … Vₙ E` becomes `lambda V₁ (lambda V₂ … (lambda Vₙ E))`;
* `E₁ @ N E₂` becomes `gamma (gamma N E₁) E₂`;
* `within (X₁ = E₁) (X₂ = E₂)` becomes `= X₂ (gamma (lambda X₁ E₂) E₁)`;
* `and (X₁ = E₁) … (Xₙ = Eₙ)` becomes `= (, X₁ … Xₙ) (tau E₁ … Eₙ)`;
* `rec (X = E)` becomes `= X (gamma Y* (lambda X E))`.

A node that does not have the shape that its rule is for stops the work. What was changed before
stays so.
-/

namespace Rpal

/-- Why no rule fits a construct. -/
inductive Defect where
  | noDefinition | noEquation | noBody | noFunctionName | noParameter
  | noLeftOperand | noOperatorName | noRightOperand
  | notTwoEquations | noDefinitions | notAllEquations
deriving DecidableEq, Inhabited

namespace Defect

/-- What was expected instead. -/
def message : Defect → String
  | noDefinition => "expected a definition"
  | noEquation => "expected an '=' definition"
  | noBody => "expected a body"
  | noFunctionName => "expected a function name"
  | noParameter => "expected a parameter"
  | noLeftOperand => "expected a left operand"
  | noOperatorName => "expected an operator name"
  | noRightOperand => "expected a right operand"
  | notTwoEquations => "both operands must be '=' definitions"
  | noDefinitions => "expected at least one definition"
  | notAllEquations => "every operand must be an '=' definition"

end Defect

/-- Why a tree cannot be standardized. -/
inductive StandardizeError where
  | alreadyStandardized
  | emptyTree
  | malformed (construct : Kind) (line : Nat) (defect : Defect)
deriving DecidableEq, Inhabited

namespace StandardizeError

/-- The error as text. -/
def message : StandardizeError → String
  | alreadyStandardized => "tree is already standardized"
  | emptyTree => "cannot standardize an empty tree"
  | malformed construct line defect =>
    "line " ++ toString line ++ ": malformed '" ++ construct.symbol ++ "': " ++ defect.message

end StandardizeError

/-- A change of an arena that may stop half way. -/
abbrev Reshape (α : Type) : Type :=
  EStateM StandardizeError Arena α

namespace Reshape

variable {α : Type}

/-! ### Reading and linking nodes -/

/-- Stops because the node at place `id` is not as its rule wants it. -/
def malformed (id : Nat) (defect : Defect) : Reshape α := do
  let a ← get
  throw (.malformed (a.kind id) (a.line id) defect)

/-- The first child of the node at place `id`. -/
def child (id : Nat) : Reshape (Option Nat) :=
  return (← get).child id

/-- The next sibling of the node at place `id`. -/
def sibling (id : Nat) : Reshape (Option Nat) :=
  return (← get).sibling id

/-- The end of a link that the rule for `owner` needs. -/
def need (owner : Nat) (link : Option Nat) (defect : Defect) : Reshape Nat :=
  match link with
  | some id => return id
  | none => malformed owner defect

/-- The left and the right side of the equation at place `id`, which the rule for `owner` needs. -/
def sides (owner id : Nat) (defect : Defect) : Reshape (Nat × Nat) := do
  if (← get).kind id = .equation then
    let left ← need owner (← child id) defect
    let right ← need owner (← sibling left) defect
    return (left, right)
  else
    malformed owner defect

/-- The sides of several equations, all the left ones and all the right ones. -/
def allSides (owner : Nat) (defect : Defect) : List Nat → Reshape (List Nat × List Nat)
  | [] => return ([], [])
  | id :: ids => do
    let (left, right) ← sides owner id defect
    let (lefts, rights) ← allSides owner defect ids
    return (left :: lefts, right :: rights)

/-- Adds a node. -/
def alloc (l : Label) : Reshape Nat := do
  let id := (← get).nextId
  modify (·.alloc l)
  return id

/-- Adds a node without text on the line of the node at place `id`. -/
def allocBeside (id : Nat) (kind : Kind) : Reshape Nat := do
  alloc { kind, text := none, line := (← get).line id }

/-- Sets the first child of a node. -/
def setChild (id : Nat) (target : Option Nat) : Reshape Unit :=
  modify (·.setChild id target)

/-- Sets the next sibling of a node. -/
def setSibling (id : Nat) (target : Option Nat) : Reshape Unit :=
  modify (·.setSibling id target)

/-- Sets the children of a node. -/
def setChildren (id : Nat) (ids : List Nat) : Reshape Unit :=
  modify (·.setChildren id ids)

/-- Sets the construct of a node. -/
def setKind (id : Nat) (kind : Kind) : Reshape Unit :=
  modify (·.setKind id kind)

/-! ### The rules -/

/-- Nests a chain of siblings `V₁ … Vₙ E` as `lambda V₁ … (lambda Vₙ E)`, up to `n` lambdas, and
    returns the outermost. -/
def nestLambdas : Nat → Nat → Reshape Nat
  | 0, id => return id
  | n + 1, id => do
    match ← sibling id with
    | none => return id
    | some next =>
      let lambda ← allocBeside id .lambda
      setChild lambda (some id)
      let body ← nestLambdas n next
      setSibling id (some body)
      return lambda

/-- Nests the whole chain of siblings from `id` on. -/
def curry (id : Nat) : Reshape Nat := do
  nestLambdas (← get).size id

/-- The rule for `let`. -/
def letRule (id : Nat) : Reshape Unit := do
  let equation ← need id (← child id) .noDefinition
  let (x, e₁) ← sides id equation .noEquation
  let e₂ ← need id (← sibling equation) .noBody
  -- the equation becomes the lambda, with the body behind its name and the right side behind it
  setSibling x (some e₂)
  setSibling equation (some e₁)
  setKind equation .lambda
  setKind id .gamma

/-- The rule for `where`: the operands change places, and the rule for `let` does the rest. -/
def whereRule (id : Nat) : Reshape Unit := do
  let e₂ ← need id (← child id) .noBody
  let equation ← need id (← sibling e₂) .noDefinition
  setSibling e₂ none
  setSibling equation (some e₂)
  setChild id (some equation)
  setKind id .letIn
  letRule id

/-- The rule for `function_form`. -/
def functionFormRule (id : Nat) : Reshape Unit := do
  let p ← need id (← child id) .noFunctionName
  let v₁ ← need id (← sibling p) .noParameter
  let _ ← need id (← sibling v₁) .noBody
  let lambda ← curry v₁
  setSibling p (some lambda)
  setKind id .equation

/-- The rule for `lambda`. -/
def lambdaRule (id : Nat) : Reshape Unit := do
  let v₁ ← need id (← child id) .noParameter
  let rest ← need id (← sibling v₁) .noBody
  let body ← curry rest
  setSibling v₁ (some body)

/-- The rule for `@`. -/
def atNameRule (id : Nat) : Reshape Unit := do
  let e₁ ← need id (← child id) .noLeftOperand
  let n ← need id (← sibling e₁) .noOperatorName
  let e₂ ← need id (← sibling n) .noRightOperand
  let inner ← allocBeside id .gamma
  setChildren inner [n, e₁]
  setSibling inner (some e₂)
  setChild id (some inner)
  setKind id .gamma

/-- The rule for `within`. -/
def withinRule (id : Nat) : Reshape Unit := do
  let first ← need id (← child id) .notTwoEquations
  let second ← need id (← sibling first) .notTwoEquations
  let (x₁, e₁) ← sides id first .notTwoEquations
  let (x₂, e₂) ← sides id second .notTwoEquations
  let lambda ← allocBeside id .lambda
  -- only the sides are linked again; no link leads to the equations any more
  setChildren lambda [x₁, e₂]
  let gamma ← allocBeside id .gamma
  setChildren gamma [lambda, e₁]
  setChildren id [x₂, gamma]
  setKind id .equation

/-- The rule for `and`. -/
def simultaneousRule (id : Nat) : Reshape Unit := do
  let equations := (← get).children id
  if equations.isEmpty then
    malformed id .noDefinitions
  let (lefts, rights) ← allSides id .notAllEquations equations
  let names ← allocBeside id .names
  setChildren names lefts
  let tau ← allocBeside id .tau
  setChildren tau rights
  setChildren id [names, tau]
  setKind id .equation

/-- The rule for `rec`. The name keeps its place before the right side, below the new lambda, and a
    copy of it becomes the left side of the equation. -/
def recursiveRule (id : Nat) : Reshape Unit := do
  let equation ← need id (← child id) .noDefinition
  let (x, _) ← sides id equation .noEquation
  let lambda ← allocBeside id .lambda
  -- the right side is still linked behind the name, and thus is the body of the lambda
  setChild lambda (some x)
  let ystar ← allocBeside id .ystar
  let gamma ← allocBeside id .gamma
  setChildren gamma [ystar, lambda]
  let copy ← alloc ((← get).label x)
  setChild copy (← child x)
  setChildren id [copy, gamma]
  setKind id .equation

/-- The rule for the construct of the node at place `id`; most constructs have none. -/
def rule (id : Nat) : Reshape Unit := do
  match (← get).kind id with
  | .letIn => letRule id
  | .whereIn => whereRule id
  | .functionForm => functionFormRule id
  | .lambda => lambdaRule id
  | .atName => atNameRule id
  | .within => withinRule id
  | .simultaneous => simultaneousRule id
  | .recursive => recursiveRule id
  | _ => return

/-! ### The whole tree -/

/-- Applies the rules to the subtrees of a chain of siblings, every node after its children, along
    up to `n` links. -/
def visit : Nat → Option Nat → Reshape Unit
  | _, none => return
  | 0, some _ => return
  | n + 1, some id => do
    visit n (← child id)
    rule id
    -- a rule keeps the sibling of its node
    visit n (← sibling id)

/-- A number of links that no path through the arena exceeds, with the nodes that the rules add. -/
def linkBound (a : Arena) : Nat :=
  (a.size + 2) * (a.size + 2)

/-- Brings the tree of the arena into its canonical form. -/
def standardize : Reshape Unit := do
  let a ← get
  if a.standardized then
    throw .alreadyStandardized
  match a.root with
  | none => throw .emptyTree
  | some root =>
    visit (linkBound a) (← child root)
    rule root
    modify fun a => { a with standardized := true }

end Reshape

namespace Arena

/-- The arena with its tree in canonical form. -/
def standardForm (a : Arena) : Except StandardizeError Arena :=
  match Reshape.standardize a with
  | .ok _ a => .ok a
  | .error e _ => .error e

end Arena

end Rpal
