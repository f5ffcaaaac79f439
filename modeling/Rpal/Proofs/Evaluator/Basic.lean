import Rpal.Machine.Operation
import Rpal.Proofs.Control.Numbering
import Rpal.Proofs.Value.Map
import Rpal.Text.Escape

/-!
# A tree-walking evaluator

Standardized trees are evaluated here by recursion, without control structures and stacks: by
value, the operands of a construct from right to left, and in a conditional only the branch that is
chosen. A function is applied by evaluating its body in a new scope inside the environment of the
function. An evaluation that needs more nested applications than allowed has no ending.

`Conc` takes two arguments at once. It can be applied only where the result is the operator of
another application, whose operand has been evaluated already: this operand is passed along to the
operator, and the operator says whether it was taken.

- `Tree.eval`: the value of a tree in an environment, given what applications do
- `Evaluation.apply`: applications, nested up to a limit
- `Tree.evaluate`: a whole program
-/

namespace Rpal

/-- The code of the function of a lambda. -/
structure Abstraction (α : Type) where
  /-- The label of the lambda. -/
  label : α
  vars : List String
  body : Tree α

instance : FunctionCode (Abstraction Numbered) where
  number c := c.label.number
  vars := Abstraction.vars

/-- A value of the evaluator. -/
abbrev TreeValue (α : Type) : Type :=
  ValueOf (Abstraction α)

/-- An environment of the evaluator. -/
abbrev TreeEnv (α : Type) : Type :=
  EnvOf (Abstraction α)

/-- An evaluation, up to some limit. -/
inductive Evaluation (φ β : Type) where
  /-- The evaluation is beyond the limit. -/
  | unfinished
  /-- The evaluation ends with a result, after some values were printed. -/
  | ended (printed : List (ValueOf φ)) (result : Except (EvalErrorOf φ) β)

namespace Evaluation

variable {φ β γ : Type}

/-- The evaluation after some values were printed. -/
def after (printed : List (ValueOf φ)) : Evaluation φ β → Evaluation φ β
  | unfinished => unfinished
  | ended more result => ended (printed ++ more) result

/-- Nothing printed before makes no difference. -/
theorem after_nil (x : Evaluation φ β) : x.after [] = x := by
  cases x <;> rfl

/-- The evaluation, and then that of what follows its result. -/
def andThen (x : Evaluation φ β) (f : β → Evaluation φ γ) : Evaluation φ γ :=
  match x with
  | unfinished => unfinished
  | ended printed (.error e) => ended printed (.error e)
  | ended printed (.ok b) => (f b).after printed

instance : Monad (Evaluation φ) where
  pure b := ended [] (.ok b)
  bind := andThen

/-- What is printed first comes first in the output. -/
theorem after_after (printed more : List (ValueOf φ)) (x : Evaluation φ β) :
    (x.after more).after printed = x.after (printed ++ more) := by
  cases x with
  | unfinished => rfl
  | ended last result => exact congrArg (ended · result) (List.append_assoc ..).symm

/-- A result is handed on. -/
theorem pure_bind (b : β) (f : β → Evaluation φ γ) : (pure b : Evaluation φ β) >>= f = f b :=
  after_nil (f b)

/-- How evaluations are put together does not matter. -/
theorem bind_assoc {δ : Type} (x : Evaluation φ β) (f : β → Evaluation φ γ) (g : γ → Evaluation φ δ) :
    x >>= f >>= g = x >>= fun b => f b >>= g := by
  cases x with
  | unfinished => rfl
  | ended printed result =>
    cases result with
    | error e => rfl
    | ok b =>
      change (f b).after printed >>= g = (f b >>= g).after printed
      cases f b with
      | unfinished => rfl
      | ended more result =>
        cases result with
        | error e => rfl
        | ok c => exact (after_after printed more (g c)).symm

/-- The reduction on a line fails. -/
def fail (line : Nat) (f : FaultOf φ) : Evaluation φ β :=
  ended [] (.error (.fault line f))

/-- The reduction on a line comes to a value or fails. -/
def settle (line : Nat) : Except (FaultOf φ) β → Evaluation φ β
  | .ok b => pure b
  | .error f => fail line f

/-- Prints a value. -/
def print (v : ValueOf φ) : Evaluation φ Unit :=
  ended [v] (.ok ())

end Evaluation

/-- The output of a program that prints the values. -/
def output {φ : Type} [FunctionCode φ] : List (ValueOf φ) → ByteArray
  | [] => .empty
  | v :: vs => (Text.expandEscapes v.render).toUTF8 ++ output vs

/-- The output of two lists of values is that of the first, and then that of the second. -/
theorem output_append {φ : Type} [FunctionCode φ] (vs ws : List (ValueOf φ)) :
    output (vs ++ ws) = output vs ++ output ws := by
  induction vs with
  | nil => rw [List.nil_append, output, ByteArray.empty_append]
  | cons v vs ih => rw [List.cons_append, output, output, ih, ByteArray.append_assoc]

/-- What is seen of the evaluation of a program: its output, and its value as a program shows it or
    the text of its error. -/
def Evaluation.shown {φ : Type} [FunctionCode φ] :
    Evaluation φ (ValueOf φ) → Option (ByteArray × Except String String)
  | unfinished => none
  | ended printed (.ok v) => some (output printed, .ok v.render)
  | ended printed (.error e) => some (output printed, .error e.message)

/-! ### Constructs -/

/-- The value that a name stands for: the one it is bound to, or a built-in function. -/
def EnvOf.value {φ : Type} (env : EnvOf φ) (name : String) : Except (FaultOf φ) (ValueOf φ) :=
  match env.lookup? name with
  | some v => .ok v
  | none =>
    match Builtin.ofName? name with
    | some b => .ok (.builtin b)
    | none => .error (.undeclared name)

/-- The value of a construct, given the values of its operands. -/
def Label.operate {φ : Type} (l : Label) (env : EnvOf φ) (operands : List (ValueOf φ)) :
    Except (FaultOf φ) (ValueOf φ) :=
  match l.kind, operands with
  | .identifier, [] => env.value l.content
  | .integer, [] => FaultOf.orOverflow (Integer.ofText? l.content)
  | .string, [] => .ok (.string l.content)
  | .truth b, [] => .ok (.truth b)
  | .nil, [] => .ok .nil
  | .dummy, [] => .ok .dummy
  | .ystar, [] => .ok .ystar
  | .tau, vs => .ok (.tuple vs)
  | .binary op, [left, right] => op.apply left right
  | .not, [v] => v.inverted
  | .neg, [v] => v.negated
  | kind, _ => .error (.unexpectedItem kind)

section

variable {φ ψ : Type} (g : φ → ψ)

/-- Mapping the functions of an environment maps what a name stands for. -/
theorem EnvOf.value_map (env : EnvOf φ) (name : String) :
    (env.map g).value name = mapResult g (env.value name) := by
  simp only [EnvOf.value, EnvOf.lookup?_map]
  cases env.lookup? name with
  | some v => rfl
  | none => cases Builtin.ofName? name <;> rfl

/-- What a construct does with its operands does not depend on the code of functions. -/
theorem Label.operate_map (l : Label) (env : EnvOf φ) (vs : List (ValueOf φ)) :
    l.operate (env.map g) (vs.map (ValueOf.map g)) = mapResult g (l.operate env vs) := by
  rw [Label.operate.eq_def, Label.operate.eq_def]
  cases l.kind with
  | identifier =>
    cases vs with
    | nil => exact EnvOf.value_map g env _
    | cons => rfl
  | integer =>
    cases vs with
    | nil => exact (mapResult_orOverflow g _).symm
    | cons => rfl
  | tau => simp only [mapResult, ValueOf.map, ValueOf.mapAll_eq_map]
  | binary op =>
    -- with another number of operands neither has a value
    rcases vs with - | ⟨l, - | ⟨r, - | -⟩⟩
    case cons.cons.nil => exact op.apply_map g l r
    all_goals rfl
  | not =>
    rcases vs with - | ⟨v, - | -⟩
    case cons.nil => exact v.inverted_map g
    all_goals rfl
  | neg =>
    rcases vs with - | ⟨v, - | -⟩
    case cons.nil => exact v.negated_map g
    all_goals rfl
  | _ => cases vs <;> rfl

variable {P : Parts φ} {env : EnvOf φ} {v : ValueOf φ}

/-- A name stands for a value whose functions are those of the environment. -/
theorem EnvOf.MadeOf.value {name : String} (henv : env.MadeOf P)
    (hbuiltin : ∀ b, Builtin.ofName? name = some b → P.builtin b)
    (h : env.value name = .ok v) : v.MadeOf P := by
  rw [EnvOf.value] at h
  split at h
  · next hv =>
    cases h
    exact henv.lookup? hv
  · split at h
    · next hb =>
      cases h
      exact hbuiltin _ hb
    · exact nomatch h

/-- The value of a construct is made of the parts of its operands and of the environment, and of
    what a name or the fixpoint finder stands for. -/
theorem Label.madeOf_of_operate {l : Label} {vs : List (ValueOf φ)} (henv : env.MadeOf P)
    (hvs : ∀ v ∈ vs, v.MadeOf P)
    (hbuiltin : l.kind = .identifier → ∀ b, Builtin.ofName? l.content = some b → P.builtin b)
    (hystar : l.kind = .ystar → P.ystar) (h : l.operate env vs = .ok v) : v.MadeOf P := by
  rw [Label.operate.eq_def] at h
  split at h
  · -- a name stands for a value of the environment or for a built-in function
    next hk => exact henv.value (hbuiltin hk) h
  · exact (FaultOf.orOverflow_settles P _).madeOf h
  · cases h; trivial
  · cases h; trivial
  · cases h; trivial
  · cases h; trivial
  · next hk =>
    cases h
    exact hystar hk
  · cases h
    exact ValueOf.allMadeOf_iff.2 hvs
  · next op l r _ =>
    simp only [List.forall_mem_cons] at hvs
    exact (op.apply_settles hvs.1 hvs.2.1).madeOf h
  · exact (ValueOf.inverted_settles P _).madeOf h
  · exact (ValueOf.negated_settles P _).madeOf h
  · cases h

end

namespace Tree

variable {α : Type} [Labelled α]

/-- What applications do: on a line, of a function to an argument, with the operand of the
    application around it if there is one. The result tells whether this operand was taken. -/
abbrev Application (α : Type) : Type :=
  Nat → TreeValue α → TreeValue α → Option (TreeValue α) →
    Evaluation (Abstraction α) (TreeValue α × Bool)

variable (apply : Application α) (env : TreeEnv α)

mutual

/-- The value of a tree. If the tree is an operator, `operand?` is its operand. -/
def eval : Tree α → Option (TreeValue α) → Evaluation (Abstraction α) (TreeValue α × Bool)
  | node a ts, operand? =>
    match (Labelled.toLabel a).kind, ts with
    | .lambda, [x, e] => return (.closure ⟨a, x.boundNames, e⟩ env, false)
    | .conditional, [p, e₁, e₂] => do
      let (v, _) ← eval p none
      match v with
      | .truth true => eval e₁ operand?
      | .truth false => eval e₂ operand?
      | v => .fail (Labelled.toLabel a).line (.type (.notTruthValue v))
    | .gamma, [e₁, e₂] => do
      let (v, _) ← eval e₂ none
      let (f, taken) ← eval e₁ (some v)
      if taken then return (f, false)
      else apply (Labelled.toLabel a).line f v operand?
    | _, ts => do
      let vs ← evalAll ts
      return (← .settle (Labelled.toLabel a).line ((Labelled.toLabel a).operate env vs), false)

/-- The values of several trees, of which the last is evaluated first. -/
def evalAll : List (Tree α) → Evaluation (Abstraction α) (List (TreeValue α))
  | [] => return []
  | t :: ts => do
    let vs ← evalAll ts
    let (v, _) ← eval t none
    return v :: vs

end

section

variable {apply env} {a : α} {x e p e₁ e₂ : Tree α} {ts : List (Tree α)}
  {operand? : Option (TreeValue α)}

/-- A lambda is the function that remembers its environment. -/
theorem eval_lambda (ha : (Labelled.toLabel a).kind = .lambda) :
    (node a [x, e]).eval apply env operand? =
      pure (.closure ⟨a, x.boundNames, e⟩ env, false) := by
  rw [eval.eq_def]
  simp only [ha]

/-- The condition is evaluated first, and then one branch, which the operand is handed to. -/
theorem eval_conditional (ha : (Labelled.toLabel a).kind = .conditional) :
    (node a [p, e₁, e₂]).eval apply env operand? = (do
      let (v, _) ← p.eval apply env none
      match v with
      | .truth true => e₁.eval apply env operand?
      | .truth false => e₂.eval apply env operand?
      | v => .fail (Labelled.toLabel a).line (.type (.notTruthValue v))) := by
  simp only [eval, ha]

/-- An operand is evaluated before its operator, which may take the operand of the application
    along. -/
theorem eval_gamma (ha : (Labelled.toLabel a).kind = .gamma) :
    (node a [e₁, e₂]).eval apply env operand? = (do
      let (v, _) ← e₂.eval apply env none
      let (f, taken) ← e₁.eval apply env (some v)
      if taken then return (f, false)
      else apply (Labelled.toLabel a).line f v operand?) := by
  simp only [eval, ha]

/-- The operands of other constructs are evaluated from the last to the first. -/
theorem eval_plain (hlambda : (Labelled.toLabel a).kind ≠ .lambda)
    (hcond : (Labelled.toLabel a).kind ≠ .conditional) (hgamma : (Labelled.toLabel a).kind ≠ .gamma) :
    (node a ts).eval apply env operand? = (do
      let vs ← evalAll apply env ts
      let v ← .settle (Labelled.toLabel a).line ((Labelled.toLabel a).operate env vs)
      return (v, false)) := by
  rw [eval]
  · exact fun _ _ h => absurd h hlambda
  · exact fun _ _ _ h => absurd h hcond
  · exact fun _ _ h => absurd h hgamma

/-- The fixpoint finder is a value. -/
theorem eval_ystar (ha : (Labelled.toLabel a).kind = .ystar) :
    (leaf a).eval apply env operand? = pure (.ystar, false) := by
  have hoperate : (Labelled.toLabel a).operate env [] = .ok .ystar := by
    rw [Label.operate.eq_def, ha]
  rw [leaf, eval_plain (by rw [ha]; decide) (by rw [ha]; decide) (by rw [ha]; decide), evalAll]
  simp only [Evaluation.pure_bind, hoperate]
  rfl

end

end Tree

/-! ### Applications -/

namespace Evaluation

variable {α : Type} [Labelled α]

/-- Evaluates the body of the function with the given code and environment. -/
def call (apply : Tree.Application α) (line : Nat) (code : Abstraction α) (env : TreeEnv α)
    (v : TreeValue α) : Evaluation (Abstraction α) (TreeValue α) :=
  match env.enter? code.vars v with
  | none => fail line (.type (.notTupleOf code.vars.length v))
  | some inner => do
    let (r, _) ← code.body.eval apply inner none
    return r

/-- The application of a function to an argument, up to `limit` applications deep. -/
def apply : Nat → Tree.Application α
  | 0, _, _, _, _ => unfinished
  | limit + 1, line, f, v, operand? =>
    match f with
    | .closure code env => return (← call (apply limit) line code env v, false)
    | .eta code env => do
      -- the function is applied to its fixpoint first
      let f ← call (apply limit) line code env (.eta code env)
      apply limit line f v operand?
    | .ystar =>
      match v with
      | .closure code env => return (.eta code env, false)
      | v => fail line (.type (.notClosure v))
    | .tuple elements => return (← settle line (ValueOf.element elements v), false)
    | .builtin .conc =>
      match operand? with
      | some w => return (← settle line (v.joined w), true)
      | none => return (← settle line (Builtin.conc.apply v), false)
    | .builtin .print => do
      print v
      return (← settle line (Builtin.print.apply v), false)
    | .builtin b => return (← settle line (b.apply v), false)
    | f => fail line (.cannotEvaluate f)

end Evaluation

/-- The value of a program, with up to `limit` nested applications. -/
def Tree.evaluate {α : Type} [Labelled α] (limit : Nat) (t : Tree α) :
    Evaluation (Abstraction α) (TreeValue α) := do
  let (v, _) ← t.eval (Evaluation.apply limit) .outermost none
  return v

end Rpal
