import Rpal.Proofs.Value.Parts

/-!
# Replacing the code of functions

Nothing that is done with values depends on the code of the functions in them. So the code can be
replaced before an operation or after it.

## Key results

- `EnvOf.enter?_map`: the environment of a function's body
- `BinaryOp.apply_map`, `Builtin.apply_map`: operations
- `ValueOf.render_map`, `EvalErrorOf.message_map`: printing, as long as the numbers and the parameters
  stay the same
-/

namespace Rpal

variable {φ ψ : Type}

mutual

/-- The value with the code of every function in it replaced. -/
def ValueOf.map (g : φ → ψ) : ValueOf φ → ValueOf ψ
  | .integer n => .integer n
  | .string s => .string s
  | .truth b => .truth b
  | .dummy => .dummy
  | .tuple elements => .tuple (ValueOf.mapAll g elements)
  | .closure code env => .closure (g code) (env.map g)
  | .eta code env => .eta (g code) (env.map g)
  | .ystar => .ystar
  | .builtin b => .builtin b

/-- `map` on a list of values. -/
def ValueOf.mapAll (g : φ → ψ) : List (ValueOf φ) → List (ValueOf ψ)
  | [] => []
  | v :: vs => v.map g :: ValueOf.mapAll g vs

/-- `map` on the values of an environment. -/
def EnvOf.map (g : φ → ψ) : EnvOf φ → EnvOf ψ
  | .outermost => .outermost
  | .scope outer => .scope (outer.map g)
  | .bind name value env => .bind name (value.map g) (env.map g)

end

/-- `map` on the values of a type fault. -/
def TypeFaultOf.map (g : φ → ψ) : TypeFaultOf φ → TypeFaultOf ψ
  | notTwoIntegers l r => notTwoIntegers (l.map g) (r.map g)
  | notTwoTruthValues op l r => notTwoTruthValues op (l.map g) (r.map g)
  | notBoolean v => notBoolean (v.map g)
  | notNegatable v => notNegatable (v.map g)
  | notInteger v => notInteger (v.map g)
  | notAppendable v => notAppendable (v.map g)
  | incomparable op l r => incomparable op (l.map g) (r.map g)
  | dissimilar l r => dissimilar (l.map g) (r.map g)
  | notTruthValue v => notTruthValue (v.map g)
  | notIndex v => notIndex (v.map g)
  | notClosure v => notClosure (v.map g)
  | notTupleOf count v => notTupleOf count (v.map g)
  | concAlone v => concAlone (v.map g)
  | notTwoStrings l r => notTwoStrings (l.map g) (r.map g)
  | notString b v => notString b (v.map g)
  | notTuple b v => notTuple b (v.map g)

/-- `map` on the values of a fault. -/
def FaultOf.map (g : φ → ψ) : FaultOf φ → FaultOf ψ
  | undeclared name => undeclared name
  | type fault => type (fault.map g)
  | cannotEvaluate v => cannotEvaluate (v.map g)
  | indexOutOfBounds index => indexOutOfBounds index
  | divisionByZero => divisionByZero
  | overflow => overflow
  | unexpectedItem construct => unexpectedItem construct

/-- `map` on the values of an error. -/
def EvalErrorOf.map (g : φ → ψ) : EvalErrorOf φ → EvalErrorOf ψ
  | fault line f => fault line (f.map g)
  | stackUnderflow => stackUnderflow
  | leftoverValues count => leftoverValues count
  | outputFull => outputFull

/-- `map` on the result of an operation. -/
def mapResult (g : φ → ψ) : Except (FaultOf φ) (ValueOf φ) → Except (FaultOf ψ) (ValueOf ψ)
  | .ok v => .ok (v.map g)
  | .error f => .error (f.map g)

variable (g : φ → ψ)

@[simp] theorem ValueOf.mapAll_eq_map (vs : List (ValueOf φ)) :
    ValueOf.mapAll g vs = vs.map (ValueOf.map g) := by
  induction vs with
  | nil => rfl
  | cons v vs ih => rw [ValueOf.mapAll, ih, List.map_cons]

mutual

/-- Code is replaced one time after the other, or at once. -/
theorem ValueOf.map_map {χ : Type} (g : φ → ψ) (h : ψ → χ) :
    ∀ v : ValueOf φ, (v.map g).map h = v.map (h ∘ g)
  | .integer _ | .string _ | .truth _ | .dummy | .ystar | .builtin _ => rfl
  | .tuple vs => by rw [ValueOf.map, ValueOf.map, ValueOf.map, ValueOf.mapAll_mapAll g h vs]
  | .closure c env | .eta c env => by
    rw [ValueOf.map, ValueOf.map, ValueOf.map, EnvOf.map_map g h env]
    rfl

/-- Two maps over values are one. -/
theorem ValueOf.mapAll_mapAll {χ : Type} (g : φ → ψ) (h : ψ → χ) :
    ∀ vs : List (ValueOf φ), ValueOf.mapAll h (ValueOf.mapAll g vs) = ValueOf.mapAll (h ∘ g) vs
  | [] => rfl
  | v :: vs => by
    rw [ValueOf.mapAll, ValueOf.mapAll, ValueOf.mapAll, ValueOf.map_map g h v,
      ValueOf.mapAll_mapAll g h vs]

/-- Two maps over an environment are one. -/
theorem EnvOf.map_map {χ : Type} (g : φ → ψ) (h : ψ → χ) :
    ∀ env : EnvOf φ, (env.map g).map h = env.map (h ∘ g)
  | .outermost => rfl
  | .scope outer => by rw [EnvOf.map, EnvOf.map, EnvOf.map, EnvOf.map_map g h outer]
  | .bind name v env => by
    rw [EnvOf.map, EnvOf.map, EnvOf.map, ValueOf.map_map g h v, EnvOf.map_map g h env]

end

/-! ### Environments -/

namespace EnvOf

/-- A name is looked up before or after a map. -/
theorem lookup?_map (name : String) : ∀ env : EnvOf φ,
    (env.map g).lookup? name = (env.lookup? name).map (ValueOf.map g)
  | .outermost => rfl
  | .scope outer => lookup?_map name outer
  | .bind other value env => by
    rw [EnvOf.map, EnvOf.lookup?, EnvOf.lookup?]
    split
    · rfl
    · exact lookup?_map name env

/-- Names are bound before or after a map. -/
theorem bindAll_map (env : EnvOf φ) (names : List String) (vs : List (ValueOf φ)) :
    (env.bindAll names vs).map g = (env.map g).bindAll names (vs.map (ValueOf.map g)) := by
  induction names generalizing env vs with
  | nil => cases vs <;> rfl
  | cons name names ih =>
    cases vs with
    | nil => rfl
    | cons v vs => exact ih (.bind name v env) vs

/-- A function is entered before or after a map. -/
theorem enter?_map (env : EnvOf φ) (vars : List String) (v : ValueOf φ) :
    (env.map g).enter? vars (v.map g) = (env.enter? vars v).map (EnvOf.map g) := by
  match vars with
  | [] | [_] => rfl
  | x :: y :: names =>
    cases v with
    | tuple elements =>
      simp only [EnvOf.enter?, ValueOf.map, ValueOf.mapAll_eq_map, List.length_map]
      split
      · rw [Option.map_some, bindAll_map]
        rfl
      · rfl
    | _ => rfl

end EnvOf

/-! ### Operations -/

/-- An overflow does not depend on the code of functions. -/
theorem mapResult_orOverflow (n : Option Int64) :
    mapResult g (FaultOf.orOverflow n) = FaultOf.orOverflow n := by
  cases n <;> rfl

/-- Integer operations do not depend on the code of functions. -/
theorem IntegerOp.apply_map (op : IntegerOp) (l r : Int64) :
    (op.apply l r : Except (FaultOf ψ) (ValueOf ψ)) = mapResult g (op.apply l r) := by
  cases op with
  | plus | minus | times => simp only [IntegerOp.apply, mapResult_orOverflow]
  | divide =>
    simp only [IntegerOp.apply]
    split
    · rfl
    · rw [mapResult_orOverflow]
  | power =>
    simp only [IntegerOp.apply, reciprocalPower]
    split
    · rw [mapResult_orOverflow]
    · repeat' split
      all_goals rfl
  | ls | le | gr | ge => rfl

namespace ValueOf

/-- Negation does not depend on the code of functions. -/
theorem negated_map (v : ValueOf φ) : (v.map g).negated = mapResult g v.negated := by
  cases v with
  | integer n => exact (mapResult_orOverflow g _).symm
  | _ => rfl

/-- `not` does not depend on the code of functions. -/
theorem inverted_map (v : ValueOf φ) : (v.map g).inverted = mapResult g v.inverted := by
  cases v <;> rfl

/-- `aug` does not depend on the code of functions. -/
theorem joined_map (v w : ValueOf φ) : (v.map g).joined (w.map g) = mapResult g (v.joined w) := by
  cases v <;> cases w <;> rfl

/-- An element is taken before or after a map. -/
theorem element_map (elements : List (ValueOf φ)) (v : ValueOf φ) :
    element (elements.map (ValueOf.map g)) (v.map g) = mapResult g (element elements v) := by
  cases v with
  | integer index =>
    simp only [ValueOf.map, element, List.getElem?_map]
    split
    · cases elements[index.toInt.toNat - 1]? <;> rfl
    · rfl
  | _ => rfl

/-- Values are compared before or after a map. -/
theorem equal_map (op : EqualityOp) (l r : ValueOf φ) :
    ValueOf.equal op (l.map g) (r.map g) = (ValueOf.equal op l r).mapError (FaultOf.map g) := by
  cases l <;> cases r <;> rfl

end ValueOf

/-- Operators are applied before or after a map. -/
theorem BinaryOp.apply_map (op : BinaryOp) (l r : ValueOf φ) :
    op.apply (l.map g) (r.map g) = mapResult g (op.apply l r) := by
  cases op with
  | integer op =>
    cases l with
    | integer m =>
      cases r with
      | integer n => exact op.apply_map g m n
      | _ => rfl
    | _ => rfl
  | logical op => cases l <;> cases r <;> rfl
  | equality op =>
    simp only [BinaryOp.apply, ValueOf.equal_map]
    cases ValueOf.equal op l r <;> rfl
  | aug =>
    cases l with
    | tuple elements =>
      simp only [BinaryOp.apply, ValueOf.map, mapResult, ValueOf.mapAll_eq_map, List.map_append,
        List.map_cons, List.map_nil]
    | _ => rfl

/-- A built-in on a tuple is applied before or after a map, if its function is. -/
theorem Builtin.onTuple_map {b : Builtin} {f : List (ValueOf φ) → Except (FaultOf φ) (ValueOf φ)}
    {f' : List (ValueOf ψ) → Except (FaultOf ψ) (ValueOf ψ)}
    (h : ∀ vs : List (ValueOf φ), f' (vs.map (ValueOf.map g)) = mapResult g (f vs))
    (v : ValueOf φ) : Builtin.onTuple b f' (v.map g) = mapResult g (Builtin.onTuple b f v) := by
  cases v with
  | tuple elements =>
    rw [ValueOf.map, ValueOf.mapAll_eq_map]
    exact h elements
  | _ => rfl

/-- Built-ins are applied before or after a map. -/
theorem Builtin.apply_map (b : Builtin) (v : ValueOf φ) :
    b.apply (v.map g) = mapResult g (b.apply v) := by
  cases b with
  | neg => exact v.negated_map g
  | order =>
    refine onTuple_map g (fun vs => ?_) v
    rw [List.length_map, mapResult_orOverflow]
  | null =>
    cases v with
    | tuple elements => cases elements <;> rfl
    | _ => rfl
  | _ => cases v <;> rfl

/-! ### Printing -/

namespace ValueOf

variable [FunctionCode φ] [FunctionCode ψ] {g} {P : Parts φ}

/-- A function is shown by its number and its variables alone. -/
theorem renderFunction_map {c : φ} (tag : String)
    (hc : FunctionCode.number (g c) = FunctionCode.number c ∧
      FunctionCode.vars (g c) = FunctionCode.vars c) :
    renderFunction tag (g c) = renderFunction tag c := by
  rw [renderFunction, renderFunction, hc.1, hc.2]

mutual

/-- A value is printed alike with other code that has the same numbers and parameters. -/
theorem render_map (hg : ∀ c env, P.code c env → FunctionCode.number (g c) = FunctionCode.number c ∧
    FunctionCode.vars (g c) = FunctionCode.vars c) :
    ∀ {v : ValueOf φ}, v.MadeOf P → (v.map g).render = v.render
  | .integer _, _ | .string _, _ | .truth true, _ | .truth false, _ | .dummy, _ | .ystar, _
  | .builtin _, _ | .tuple [], _ => rfl
  | .tuple (v :: vs), h => by
    rw [ValueOf.map, ValueOf.mapAll, render, render, render_map hg h.1, renderMore_map hg h.2]
  | .closure c _, h => renderFunction_map "lambda" (hg c _ h.1)
  | .eta c _, h => renderFunction_map "eta" (hg c _ h.1)

/-- The elements of a tuple are shown alike, if the code keeps numbers and variables. -/
theorem renderMore_map (hg : ∀ c env, P.code c env → FunctionCode.number (g c) = FunctionCode.number c ∧
    FunctionCode.vars (g c) = FunctionCode.vars c) :
    ∀ {vs : List (ValueOf φ)}, AllMadeOf P vs → renderMore (ValueOf.mapAll g vs) = renderMore vs
  | [], _ => rfl
  | v :: vs, h => by
    rw [ValueOf.mapAll, renderMore, renderMore, render_map hg h.1, renderMore_map hg h.2]

end

end ValueOf

/-! ### Messages -/

section

variable [FunctionCode φ] [FunctionCode ψ] {g}
  (hg : ∀ c, FunctionCode.number (g c) = FunctionCode.number c ∧
    FunctionCode.vars (g c) = FunctionCode.vars c)

include hg

/-- A value is printed alike if no code shows another number or other parameters. -/
theorem ValueOf.render_map_of_forall (v : ValueOf φ) : (v.map g).render = v.render :=
  have hany : ∀ (c : φ) env, Parts.any.code c env →
      FunctionCode.number (g c) = FunctionCode.number c ∧
        FunctionCode.vars (g c) = FunctionCode.vars c := fun c _ _ => hg c
  render_map hany v.madeOf_any

/-- What a type fault says does not depend on the code, but for numbers and parameters. -/
theorem TypeFaultOf.message_map (f : TypeFaultOf φ) : (f.map g).message = f.message := by
  have hrender := ValueOf.render_map_of_forall hg
  rw [message.eq_def, message.eq_def]
  cases f <;> simp only [TypeFaultOf.map, quote, quotePair, hrender]

/-- The message of a fault does not depend on the code of functions. -/
theorem FaultOf.message_map (f : FaultOf φ) : (f.map g).message = f.message := by
  rw [message.eq_def, message.eq_def]
  cases f with
  | type fault => exact fault.message_map hg
  | cannotEvaluate v => simp only [FaultOf.map, ValueOf.render_map_of_forall hg]
  | _ => rfl

/-- The message of an error does not depend on the code of functions. -/
theorem EvalErrorOf.message_map (e : EvalErrorOf φ) : (e.map g).message = e.message := by
  rw [message.eq_def, message.eq_def]
  cases e with
  | fault line f => simp only [EvalErrorOf.map, f.message_map hg]
  | _ => rfl

end

end Rpal
