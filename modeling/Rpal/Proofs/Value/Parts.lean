import Rpal.Machine.Operation
import Mathlib

/-!
# The parts of values

What a value is made of, as far as a program can get at it: in tuples, and in the environments of
functions. Operations make values of the parts of their operands, and can only fail in ways that a
program can cause.

## Key results

- `EnvOf.MadeOf.enter?`: the environment of a function's body is made of the same parts
- `BinaryOp.apply_settles`, `Builtin.apply_settles`: operations keep to the parts of their operands
-/

namespace Rpal

/-- What values may be made of: whether the fixpoint finder is allowed, and which built-in functions
    and functions with code in `φ` are. What is required of code may depend on its environment. -/
structure Parts (φ : Type) where
  ystar : Prop
  builtin : Builtin → Prop
  code : φ → EnvOf φ → Prop

variable {φ : Type} {P : Parts φ}

mutual

/-- The value is made of the parts that `P` allows. -/
def ValueOf.MadeOf (P : Parts φ) : ValueOf φ → Prop
  | .tuple elements => ValueOf.AllMadeOf P elements
  | .closure code env | .eta code env => P.code code env ∧ env.MadeOf P
  | .ystar => P.ystar
  | .builtin b => P.builtin b
  | _ => True

/-- All values are made of the parts that `P` allows. -/
def ValueOf.AllMadeOf (P : Parts φ) : List (ValueOf φ) → Prop
  | [] => True
  | v :: vs => v.MadeOf P ∧ ValueOf.AllMadeOf P vs

/-- All values that are bound are made of the parts that `P` allows. -/
def EnvOf.MadeOf (P : Parts φ) : EnvOf φ → Prop
  | .outermost => True
  | .scope outer => outer.MadeOf P
  | .bind _ value env => value.MadeOf P ∧ env.MadeOf P

end

/-- A program can cause the fault. The others are defects of a program's code. -/
def FaultOf.IsExpected : FaultOf φ → Prop
  | .unexpectedItem _ | .type (.notClosure _) => False
  | _ => True

/-- An operation on values can have the fault. -/
def FaultOf.IsOperational : FaultOf φ → Prop
  | .undeclared _ | .unexpectedItem _ | .type (.notClosure _) => False
  | _ => True

/-- An operational fault is an expected one. -/
theorem FaultOf.IsOperational.isExpected {f : FaultOf φ} (h : f.IsOperational) : f.IsExpected := by
  cases f with
  | type fault => cases fault <;> trivial
  | unexpectedItem => exact h
  | _ => trivial

/-- The result is a value made of the parts that `P` allows, or a fault of an operation. -/
inductive Settles (P : Parts φ) : Except (FaultOf φ) (ValueOf φ) → Prop where
  | ok {v} : v.MadeOf P → Settles P (.ok v)
  | error {f} : f.IsOperational → Settles P (.error f)

/-- A value that an operation settles on is made of the parts. -/
theorem Settles.madeOf {r : Except (FaultOf φ) (ValueOf φ)} {v : ValueOf φ} (h : Settles P r)
    (hr : r = .ok v) : v.MadeOf P := by
  cases h with
  | ok hv => exact Except.ok.inj hr ▸ hv
  | error => exact nomatch hr

/-- Values are made of parts if each of them is. -/
theorem ValueOf.allMadeOf_iff {vs : List (ValueOf φ)} : AllMadeOf P vs ↔ ∀ v ∈ vs, v.MadeOf P := by
  induction vs with
  | nil => exact ⟨fun _ => nofun, fun _ => trivial⟩
  | cons v vs ih => rw [AllMadeOf, ih, List.forall_mem_cons]

/-- Values may be made of anything. -/
def Parts.any : Parts φ where
  ystar := True
  builtin _ := True
  code _ _ := True

mutual

/-- Every value is made of any parts. -/
theorem ValueOf.madeOf_any (v : ValueOf φ) : v.MadeOf .any := by
  cases v with
  | tuple elements => exact ValueOf.allMadeOf_any elements
  | closure code env | eta code env => exact ⟨trivial, env.madeOf_any⟩
  | _ => trivial

/-- All values are made of any parts. -/
theorem ValueOf.allMadeOf_any (vs : List (ValueOf φ)) : ValueOf.AllMadeOf .any vs := by
  cases vs with
  | nil => trivial
  | cons v vs => exact ⟨v.madeOf_any, ValueOf.allMadeOf_any vs⟩

/-- Every environment is made of any parts. -/
theorem EnvOf.madeOf_any (env : EnvOf φ) : env.MadeOf .any := by
  cases env with
  | outermost => trivial
  | scope outer => exact outer.madeOf_any
  | bind name value env => exact ⟨value.madeOf_any, env.madeOf_any⟩

end

/-! ### Environments -/

namespace EnvOf

/-- What is looked up is made of the parts of the environment. -/
theorem MadeOf.lookup? {env : EnvOf φ} {name : String} {v : ValueOf φ} (h : env.MadeOf P)
    (hv : env.lookup? name = some v) : v.MadeOf P := by
  match env, h with
  | .outermost, _ => exact nomatch hv
  | .scope outer, h =>
    have houter : outer.MadeOf P := h
    exact houter.lookup? hv
  | .bind other value env, ⟨hvalue, henv⟩ =>
    rw [EnvOf.lookup?] at hv
    split at hv
    · exact Option.some.inj hv ▸ hvalue
    · exact henv.lookup? hv

/-- Binding values adds no parts but theirs. -/
theorem MadeOf.bindAll {env : EnvOf φ} {names : List String} {vs : List (ValueOf φ)}
    (h : env.MadeOf P) (hvs : ∀ v ∈ vs, v.MadeOf P) : (env.bindAll names vs).MadeOf P := by
  induction names generalizing env vs with
  | nil =>
    cases vs <;> exact h
  | cons name names ih =>
    cases vs with
    | nil => exact h
    | cons v vs =>
      obtain ⟨hv, hvs⟩ := List.forall_mem_cons.1 hvs
      exact ih ⟨hv, h⟩ hvs

/-- The environment of a function's body is made of the parts of the argument and of the function's
    environment. -/
theorem MadeOf.enter? {env inner : EnvOf φ} {vars : List String} {v : ValueOf φ} (h : env.MadeOf P)
    (hv : v.MadeOf P) (hinner : env.enter? vars v = some inner) : inner.MadeOf P := by
  rw [EnvOf.enter?.eq_def] at hinner
  split at hinner
  · exact Option.some.inj hinner ▸ h
  · exact Option.some.inj hinner ▸ ⟨hv, h⟩
  · split at hinner
    · split at hinner
      · have hscope : (EnvOf.scope env).MadeOf P := h
        exact Option.some.inj hinner ▸ hscope.bindAll (ValueOf.allMadeOf_iff.1 hv)
      · exact nomatch hinner
    · exact nomatch hinner

end EnvOf

/-! ### Operations -/

section

variable (P)

/-- An overflow is an operational fault. -/
theorem FaultOf.orOverflow_settles (n : Option Int64) : Settles P (FaultOf.orOverflow n) := by
  cases n with
  | none => exact .error trivial
  | some n => exact .ok trivial

/-- A power with a negative exponent is an integer or an operational fault. -/
theorem IntegerOp.reciprocalPower_settles (base : Int64) (exponent : Nat) :
    Settles P (IntegerOp.reciprocalPower base exponent) := by
  rw [IntegerOp.reciprocalPower]
  split
  · exact .error trivial
  · repeat' split
    all_goals exact .ok trivial

/-- Integer operations settle on integers or operational faults. -/
theorem IntegerOp.apply_settles (op : IntegerOp) (l r : Int64) : Settles P (op.apply l r) := by
  cases op with
  | plus | minus | times => exact FaultOf.orOverflow_settles P _
  | divide =>
    simp only [IntegerOp.apply]
    split
    · exact .error trivial
    · exact FaultOf.orOverflow_settles P _
  | power =>
    simp only [IntegerOp.apply]
    split
    · exact FaultOf.orOverflow_settles P _
    · exact reciprocalPower_settles P _ _
  | ls | le | gr | ge => exact .ok trivial

/-- Negation settles on an integer or an operational fault. -/
theorem ValueOf.negated_settles (v : ValueOf φ) : Settles P v.negated := by
  cases v with
  | integer n => exact FaultOf.orOverflow_settles P _
  | _ => exact .error trivial

/-- `not` settles on a truth value or an operational fault. -/
theorem ValueOf.inverted_settles (v : ValueOf φ) : Settles P v.inverted := by
  cases v with
  | truth b => exact .ok trivial
  | _ => exact .error trivial

/-- `aug` settles on a tuple of the parts it was given. -/
theorem ValueOf.joined_settles (v w : ValueOf φ) : Settles P (v.joined w) := by
  rw [ValueOf.joined.eq_def]
  split
  · exact .ok trivial
  · exact .error trivial

end

/-- A comparison of values can only fail as operations do. -/
theorem ValueOf.equal_isOperational {op : EqualityOp} {l r : ValueOf φ} {f : FaultOf φ}
    (h : ValueOf.equal op l r = .error f) : f.IsOperational := by
  rw [ValueOf.equal.eq_def] at h
  split at h <;> cases h <;> exact trivial

/-- The elements of a tuple are parts of it. -/
theorem ValueOf.element_settles {elements : List (ValueOf φ)} (h : ∀ v ∈ elements, v.MadeOf P)
    (v : ValueOf φ) : Settles P (ValueOf.element elements v) := by
  cases v with
  | integer index =>
    rw [ValueOf.element]
    split
    · split
      · next hv => exact .ok (h _ (List.mem_of_getElem? hv))
      · exact .error trivial
    · exact .error trivial
  | _ => exact .error trivial

/-- An operator makes a value of the parts of its operands, or fails as operations do. -/
theorem BinaryOp.apply_settles (op : BinaryOp) {l r : ValueOf φ} (hl : l.MadeOf P)
    (hr : r.MadeOf P) : Settles P (op.apply l r) := by
  cases op with
  | integer op =>
    simp only [BinaryOp.apply]
    split
    · exact op.apply_settles P _ _
    · exact .error trivial
  | logical op =>
    simp only [BinaryOp.apply]
    split
    · exact .ok trivial
    · exact .error trivial
  | equality op =>
    simp only [BinaryOp.apply]
    cases h : ValueOf.equal op l r with
    | error f => exact .error (ValueOf.equal_isOperational h)
    | ok b => exact .ok trivial
  | aug =>
    cases l with
    | tuple elements =>
      refine .ok (ValueOf.allMadeOf_iff.2 fun v hv => ?_)
      -- an element of the longer tuple is one of the tuple, or the one that is added
      rcases List.mem_append.1 hv with hv | hv
      · exact ValueOf.allMadeOf_iff.1 hl v hv
      · exact List.mem_singleton.1 hv ▸ hr
    | _ => exact .error trivial

/-- A built-in on a tuple settles, if its function does. -/
theorem Builtin.onTuple_settles {b : Builtin}
    {f : List (ValueOf φ) → Except (FaultOf φ) (ValueOf φ)} (h : ∀ vs, Settles P (f vs))
    (v : ValueOf φ) : Settles P (Builtin.onTuple b f v) := by
  cases v with
  | tuple elements => exact h elements
  | _ => exact .error trivial

/-- A built-in function makes a value without functions, or fails as operations do. -/
theorem Builtin.apply_settles (P : Parts φ) (b : Builtin) (v : ValueOf φ) :
    Settles P (b.apply v) := by
  cases b with
  | isInteger | isString | isTuple | isDummy | isTruthValue | isFunction | print =>
    exact .ok trivial
  | itoS =>
    cases v with
    | integer n => exact .ok trivial
    | _ => exact .error trivial
  | order => exact onTuple_settles (fun vs => FaultOf.orOverflow_settles P _) v
  | null =>
    cases v with
    | tuple vs => exact .ok trivial
    | _ => exact .error trivial
  | stem | stern =>
    cases v with
    | string s => exact .ok trivial
    | _ => exact .error trivial
  | neg => exact v.negated_settles P
  | conc => exact .error trivial

end Rpal
