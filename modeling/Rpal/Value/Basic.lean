import Rpal.Control.Basic
import Rpal.Value.Builtin

/-!
# Values and environments

A function value is a function's code together with the environment in which the function was
evaluated. The code of a function of the machine is a lambda's delta; what is done with values does
not depend on it, and only its number and its parameters are ever shown.

Environments are built from the inside: a new scope is opened in another environment, and names are
bound in it one after the other. A name stands for its last binding, first in the innermost scope
and then in those around it.
-/

namespace Rpal

/-- What is shown of the code of a function. -/
class FunctionCode (φ : Type) where
  number : φ → Nat
  vars : φ → List String

instance : FunctionCode Delta where
  number := Delta.index
  vars := Delta.vars

mutual

/-- A value of a program whose functions have their code in `φ`. -/
inductive ValueOf (φ : Type) where
  | integer (n : Int64)
  | string (s : String)
  | truth (b : Bool)
  | dummy
  | tuple (elements : List (ValueOf φ))
  /-- The function of a lambda. -/
  | closure (code : φ) (env : EnvOf φ)
  /-- The fixpoint of the function of a lambda. -/
  | eta (code : φ) (env : EnvOf φ)
  /-- The function that finds fixpoints. -/
  | ystar
  | builtin (b : Builtin)

/-- The bindings that are visible at a place of the program. -/
inductive EnvOf (φ : Type) where
  /-- A scope with nothing around it and nothing in it. -/
  | outermost
  /-- A scope in `outer` with nothing in it. -/
  | scope (outer : EnvOf φ)
  /-- The environment `env` with `name` bound in its innermost scope. -/
  | bind (name : String) (value : ValueOf φ) (env : EnvOf φ)

end

/-- A value of the machine. -/
abbrev Value : Type :=
  ValueOf Delta

/-- An environment of the machine. -/
abbrev Env : Type :=
  EnvOf Delta

/-- The environment in which the machine starts. -/
abbrev Env.outermost : Env :=
  EnvOf.outermost

variable {φ : Type}

instance : Inhabited (ValueOf φ) := ⟨.dummy⟩

instance : Inhabited (EnvOf φ) := ⟨.outermost⟩

namespace EnvOf

/-- The value that `name` stands for. -/
def lookup? (name : String) : EnvOf φ → Option (ValueOf φ)
  | outermost => none
  | scope outer => outer.lookup? name
  | bind other value env => if name = other then some value else env.lookup? name

/-- The value that `name` is bound to in the innermost scope. -/
def local? (name : String) : EnvOf φ → Option (ValueOf φ)
  | outermost | scope _ => none
  | bind other value env => if name = other then some value else env.local? name

/-- The names bound in the innermost scope, the last binding first. -/
def localNames : EnvOf φ → List String
  | outermost | scope _ => []
  | bind name _ env => name :: env.localNames

/-- The environment around the innermost scope. -/
def outer? : EnvOf φ → Option (EnvOf φ)
  | outermost => none
  | scope outer => some outer
  | bind _ _ env => env.outer?

/-- Binds each name to the value at its place. -/
def bindAll (env : EnvOf φ) : List String → List (ValueOf φ) → EnvOf φ
  | name :: names, value :: values => (bind name value env).bindAll names values
  | _, _ => env

/-- The environment of the body of a lambda that binds `vars`, applied to `argument` and evaluated
    first in `env`. Several names take the elements of a tuple of that many. -/
def enter? (env : EnvOf φ) (vars : List String) (argument : ValueOf φ) : Option (EnvOf φ) :=
  match vars with
  | [] => some (scope env)
  | [name] => some (bind name argument (scope env))
  | names =>
    match argument with
    | .tuple elements =>
      if elements.length = names.length then some ((scope env).bindAll names elements) else none
    | _ => none

end EnvOf

namespace ValueOf

/-- The tuple without elements. -/
def nil : ValueOf φ :=
  tuple []

/-- The value is a truth value. -/
def isTruthValue : ValueOf φ → Bool
  | truth _ => true
  | _ => false

/-- The value is the function of a lambda or a fixpoint of one. -/
def isFunction : ValueOf φ → Bool
  | closure .. | eta .. => true
  | _ => false

/-- The value is an integer. -/
def isInteger : ValueOf φ → Bool
  | integer _ => true
  | _ => false

/-- The value is a string. -/
def isString : ValueOf φ → Bool
  | string _ => true
  | _ => false

/-- The value is a tuple. -/
def isTuple : ValueOf φ → Bool
  | tuple _ => true
  | _ => false

/-- The value is `dummy`. -/
def isDummy : ValueOf φ → Bool
  | dummy => true
  | _ => false

end ValueOf

end Rpal
