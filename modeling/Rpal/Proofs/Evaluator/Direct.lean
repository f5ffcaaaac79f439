import Rpal.Proofs.Evaluator.Basic

/-!
# An evaluator of parsed trees

Trees are evaluated here as the parser builds them: definitions, `where` clauses, functions with
several parameters and applications of the form `a @f b` have a meaning of their own, and no tree is
rewritten. A definition is evaluated to the value of its right side, and the names that it defines
are bound to this value in a new scope. A recursive definition has the fixpoint of its right side as
its value; each time it is applied, the right side is evaluated again, with the names bound to the
fixpoint.

Applications, the scopes of definitions, and fixpoints are one level deeper than what is around
them. An evaluation that needs more nested levels than allowed has no ending.

- `Direct.value`: the value of an expression or of a definition, given what is done one level deeper
- `Direct.level`: what is done one level deeper, up to a limit
- `Direct.evaluate`: a whole program
-/

namespace Rpal

/-- The code of a function of a parsed tree. -/
structure Procedure where
  number : Nat
  vars : List String
  /-- What is evaluated with the names bound: the parameters that are still to come, and last the
      body. -/
  rest : List (Tree Numbered)

instance : FunctionCode Procedure where
  number := Procedure.number
  vars := Procedure.vars

/-- A value of the evaluator of parsed trees. -/
abbrev DirectValue : Type :=
  ValueOf Procedure

/-- An environment of the evaluator of parsed trees. -/
abbrev DirectEnv : Type :=
  EnvOf Procedure

namespace Tree

variable {α : Type} [Labelled α]

mutual

/-- The names that a definition binds: those on the left of an equation, or the name of a function;
    the names of the inner definition of a recursive one, or of one within another; all names of
    definitions that hold at the same time. -/
def definedNames : Tree α → List String
  | node a ts =>
    match (Labelled.toLabel a).kind, ts with
    | .recursive, [d] => d.definedNames
    | .within, [_, d] => d.definedNames
    | .simultaneous, ds => definedNamesAll ds
    | _, x :: _ => x.boundNames
    | _, [] => []

/-- The names that several definitions bind. -/
def definedNamesAll : List (Tree α) → List String
  | [] => []
  | d :: ds => d.definedNames ++ definedNamesAll ds

end

end Tree

namespace Direct

open Rpal.Tree

/-- What is done one level deeper. -/
structure Level where
  /-- Applies a function, on a line, to an argument. -/
  apply : Nat → DirectValue → DirectValue → Evaluation Procedure DirectValue
  /-- Binds names, on a line, to a value in a new scope of an environment, and evaluates the rest of
      a construct there. -/
  bind : Nat → List String → DirectEnv → DirectValue → List (Tree Numbered) →
    Evaluation Procedure DirectValue
  /-- Finds the fixpoint of a function. -/
  fixpoint : Procedure → DirectEnv → Evaluation Procedure DirectValue

variable (below : Level) (env : DirectEnv)

mutual

/-- The value of an expression, or of the right side of a definition. The number of a function is
    that at its parameter, or that at its definition if this is recursive. -/
def value : Tree Numbered → Evaluation Procedure DirectValue
  | node a ts =>
    match a.label.kind, ts with
    | .equation, [_, e] => value e
    | .letIn, [d, e] | .whereIn, [e, d] | .within, [d, e] => do
      let v ← value d
      below.bind a.label.line d.definedNames env v [e]
    | .simultaneous, ds => do
      let vs ← values ds
      return .tuple vs
    | .recursive, [d] => below.fixpoint ⟨a.number, d.definedNames, [d]⟩ env
    | .lambda, rest | .functionForm, _ :: rest => function rest
    | .conditional, [p, e₁, e₂] => do
      let v ← value p
      match v with
      | .truth true => value e₁
      | .truth false => value e₂
      | v => .fail a.label.line (.type (.notTruthValue v))
    | .gamma, [e₁, e₂] => do
      let v ← value e₂
      let f ← value e₁
      below.apply a.label.line f v
    | .atName, [e₁, n, e₂] => do
      let v₂ ← value e₂
      let v₁ ← value e₁
      let f ← value n
      let g ← below.apply a.label.line f v₁
      below.apply a.label.line g v₂
    | _, ts => do
      let vs ← values ts
      .settle a.label.line (a.label.operate env vs)

/-- The values of several trees, of which the last is evaluated first. -/
def values : List (Tree Numbered) → Evaluation Procedure (List DirectValue)
  | [] => return []
  | t :: ts => do
    let vs ← values ts
    let v ← value t
    return v :: vs

/-- The function of the first parameter if there is one, and otherwise the value of the body. -/
def function : List (Tree Numbered) → Evaluation Procedure DirectValue
  | [] => .fail 0 (.unexpectedItem .lambda)
  | [e] => value e
  | v :: t :: rest => return .closure ⟨v.label.number, v.boundNames, t :: rest⟩ env

end

section

attribute [local simp] value

variable {below env} {a : Numbered} {d e f n p v t x e₁ e₂ : Tree Numbered}
  {ts rest : List (Tree Numbered)}

/-- An equation has the value of its right side. -/
theorem value_equation (ha : a.label.kind = .equation) :
    value below env (node a [x, e]) = value below env e := by
  simp [ha]

/-- A `let` binds the value of its definition around its body. -/
theorem value_letIn (ha : a.label.kind = .letIn) :
    value below env (node a [d, e]) = (do
      let v ← value below env d
      below.bind a.label.line d.definedNames env v [e]) := by
  simp [ha]

/-- A `where` does what a `let` does, with the definition behind the body. -/
theorem value_whereIn (ha : a.label.kind = .whereIn) :
    value below env (node a [e, d]) = (do
      let v ← value below env d
      below.bind a.label.line d.definedNames env v [e]) := by
  simp [ha]

/-- An inner definition is evaluated where the outer one is bound. -/
theorem value_within (ha : a.label.kind = .within) :
    value below env (node a [d, e]) = (do
      let v ← value below env d
      below.bind a.label.line d.definedNames env v [e]) := by
  simp [ha]

/-- Simultaneous definitions have a tuple of values. -/
theorem value_simultaneous (ha : a.label.kind = .simultaneous) :
    value below env (node a ts) = (do
      let vs ← values below env ts
      return .tuple vs) := by
  simp [ha]

/-- A recursive definition has a fixpoint as its value. -/
theorem value_recursive (ha : a.label.kind = .recursive) :
    value below env (node a [d]) = below.fixpoint ⟨a.number, d.definedNames, [d]⟩ env := by
  simp [ha]

/-- A lambda is a function of its first parameter. -/
theorem value_lambda (ha : a.label.kind = .lambda) :
    value below env (node a rest) = function below env rest := by
  simp [ha]

/-- A function form is a function of its first parameter, too. -/
theorem value_functionForm (ha : a.label.kind = .functionForm) :
    value below env (node a (f :: rest)) = function below env rest := by
  simp [ha]

/-- The condition is evaluated first, and then one branch. -/
theorem value_conditional (ha : a.label.kind = .conditional) :
    value below env (node a [p, e₁, e₂]) = (do
      let v ← value below env p
      match v with
      | .truth true => value below env e₁
      | .truth false => value below env e₂
      | v => .fail a.label.line (.type (.notTruthValue v))) := by
  simp [ha]

/-- An operand is evaluated before its operator. -/
theorem value_gamma (ha : a.label.kind = .gamma) :
    value below env (node a [e₁, e₂]) = (do
      let v ← value below env e₂
      let f ← value below env e₁
      below.apply a.label.line f v) := by
  simp [ha]

/-- An application by name evaluates its last operand first and the name last. -/
theorem value_atName (ha : a.label.kind = .atName) :
    value below env (node a [e₁, n, e₂]) = (do
      let v₂ ← value below env e₂
      let v₁ ← value below env e₁
      let f ← value below env n
      let g ← below.apply a.label.line f v₁
      below.apply a.label.line g v₂) := by
  simp [ha]

end

/-- What is done one level deeper, up to `limit` levels deep. -/
def level : Nat → Level
  | 0 =>
    { apply := fun _ _ _ => .unfinished
      bind := fun _ _ _ _ _ => .unfinished
      fixpoint := fun _ _ => .unfinished }
  | limit + 1 =>
    let bind line vars env v rest :=
      match env.enter? vars v with
      | none => .fail line (.type (.notTupleOf vars.length v))
      | some inner => function (level limit) inner rest
    { bind
      fixpoint := fun code env => return .eta code env
      apply := fun line f v =>
        match f with
        | .closure code env => bind line code.vars env v code.rest
        | .eta code env => do
          -- the right side is evaluated with the names bound to the fixpoint
          let f ← bind line code.vars env (.eta code env) code.rest
          (level limit).apply line f v
        | .tuple elements => .settle line (ValueOf.element elements v)
        | .builtin .print => do
          .print v
          return .dummy
        | .builtin b => .settle line (b.apply v)
        | f => .fail line (.cannotEvaluate f) }

/-- The value of a program, up to `limit` levels deep. -/
def evaluate (limit : Nat) (t : Tree Numbered) : Evaluation Procedure DirectValue :=
  value (level limit) .outermost t

end Direct

end Rpal
