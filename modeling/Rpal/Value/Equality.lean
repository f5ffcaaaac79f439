import Rpal.Value.Basic

/-!
# Equality of values

Two values are equal when they are built alike. For function values this means the same delta and
equal environments: in each scope the same names, bound to equal values, in whatever order the
bindings were made. The outer scopes are compared first, and the names of a scope before their
values.
-/

namespace Rpal

namespace ValueOf

variable {φ : Type} [DecidableEq φ]

mutual

/-- The two values are equal. -/
def same : ValueOf φ → ValueOf φ → Bool
  | integer m, integer n => m = n
  | string s, string t => s = t
  | truth a, truth b => a = b
  | dummy, dummy => true
  | tuple vs, tuple ws => sameAll vs ws
  | closure d env, closure d' env' => d = d' && sameOuter env env' && sameScope env [] env'
  | eta d env, eta d' env' => d = d' && sameOuter env env' && sameScope env [] env'
  | ystar, ystar => true
  | builtin b, builtin c => b = c
  | _, _ => false

/-- The two lists of values are equal. -/
def sameAll : List (ValueOf φ) → List (ValueOf φ) → Bool
  | [], [] => true
  | v :: vs, w :: ws => v.same w && sameAll vs ws
  | _, _ => false

/-- The environments around the innermost scopes are equal. -/
def sameOuter : EnvOf φ → EnvOf φ → Bool
  | .outermost, other => other.outer?.isNone
  | .scope outer, other =>
    match other.outer? with
    | none => false
    | some other => sameOuter outer other && sameScope outer [] other
  | .bind _ _ env, other => sameOuter env other

/-- The innermost scopes have the same names, bound to equal values, where the names `seen` have been
    compared already. -/
def sameScope (env : EnvOf φ) (seen : List String) (other : EnvOf φ) : Bool :=
  match env with
  | .outermost | .scope _ => other.localNames.all seen.contains
  | .bind name value env =>
    if seen.contains name then sameScope env seen other
    else
      match other.local? name with
      | none => false
      | some found => sameScope env (name :: seen) other && value.same found

end

end ValueOf

end Rpal
