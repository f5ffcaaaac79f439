import Rpal.Text.Quoted
import Rpal.Value.Basic

/-!
# Printed values

A value is printed as a program shows it (`Value.render`), or as a listing of the value stack shows
it, with its type and with quoted strings (`Value.listing`).
-/

namespace Rpal

namespace ValueOf

variable {φ : Type} [FunctionCode φ]

/-- A function value: how it came about, its first parameter, and its number. -/
def renderFunction (tag : String) (code : φ) : String :=
  "[" ++ tag ++ " closure: " ++ (FunctionCode.vars code).head?.getD "()" ++ ": " ++
    toString (FunctionCode.number code) ++ "]"

mutual

/-- The value as a program shows it. -/
def render : ValueOf φ → String
  | integer n => toString n.toInt
  | string s => s
  | truth true => "true"
  | truth false => "false"
  | dummy => "dummy"
  | tuple [] => "nil"
  | tuple (v :: vs) => "(" ++ v.render ++ renderMore vs ++ ")"
  | closure code _ => renderFunction "lambda" code
  | eta code _ => renderFunction "eta" code
  | ystar => "<Y*>"
  | builtin b => b.name

/-- The elements after the first, each behind a comma. -/
def renderMore : List (ValueOf φ) → String
  | [] => ""
  | v :: vs => ", " ++ v.render ++ renderMore vs

end

end ValueOf

namespace Value

/-- A record in a listing. -/
def record (name : String) (fields : List (String × String)) : String :=
  name ++ " \x7b " ++ ", ".intercalate (fields.map fun f => f.1 ++ ": " ++ f.2) ++ " \x7d"

/-- A list in a listing. -/
def bracketed (items : List String) : String :=
  "[" ++ ", ".intercalate items ++ "]"

/-- An item of a control sequence in a listing. -/
def itemListing : ControlItem → String
  | .node id => "Node(NodeId(" ++ toString id ++ "))"
  | .delta index => "Delta(DeltaId(" ++ toString index ++ "))"
  | .beta index => "Beta(BetaId(" ++ toString index ++ "))"

/-- A delta in a listing. -/
def deltaListing (d : Delta) : String :=
  record "Delta"
    [("index", toString d.index), ("bound_vars", bracketed (d.vars.map Text.quotedString)),
     ("line", toString d.line), ("body", bracketed (d.body.map itemListing))]

/-- A function value in a listing, given the listing of its environment. -/
def functionListing (d : Delta) (env : String) : String :=
  record "Closure" [("delta", deltaListing d), ("env", env)]

/-- An environment in a listing, given the listings of its parts. -/
def envListing (outer : Option String) (bindings : List (String × String)) : String :=
  let shown := bindings.map fun b => Text.quotedString b.1 ++ ": " ++ b.2
  record "Env"
    [("parent", match outer with | none => "None" | some text => "Some(" ++ text ++ ")"),
     ("bindings", "\x7b" ++ ", ".intercalate shown ++ "\x7d")]

mutual

/-- The value as a listing of the value stack shows it. -/
def listing : Value → String
  | .integer n => "Integer(" ++ toString n.toInt ++ ")"
  | .string s => "Str(" ++ Text.quotedString s ++ ")"
  | .truth true => "Bool(true)"
  | .truth false => "Bool(false)"
  | .dummy => "Dummy"
  | .tuple vs => "Tuple(" ++ bracketed (listings vs) ++ ")"
  | .closure delta env => "Closure(" ++ functionListing delta (scopeListing env []) ++ ")"
  | .eta delta env => "Eta(" ++ functionListing delta (scopeListing env []) ++ ")"
  | .ystar => "YStar"
  | .builtin b => "Builtin(" ++ b.label ++ ")"

/-- The listings of several values. -/
def listings : List Value → List String
  | [] => []
  | v :: vs => listing v :: listings vs

/-- An environment in a listing; `shown` are the bindings of its innermost scope that come after
    those in `env`, in order. Only the last binding of a name is shown. -/
def scopeListing (env : Env) (shown : List (String × String)) : String :=
  match env with
  | .outermost => envListing none shown
  | .scope outer => envListing (some (scopeListing outer [])) shown
  | .bind name value env =>
    if shown.any (·.1 = name) then scopeListing env shown
    else scopeListing env ((name, listing value) :: shown)

end

/-- The listing of a stack of values, whose last comes first. -/
def stackListing (values : List Value) : String :=
  bracketed (listings values.reverse)

end Value

end Rpal
