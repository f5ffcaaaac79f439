import Rpal.Proofs.Tree.Renaming
import Rpal.Proofs.Value.Map

/-!
# Values that are the same up to the names of parameters

Two functions are the same if their codes are, in environments that bind corresponding names to
values that are the same. What is done with values does not depend on the names in the environments
of functions, so that it comes to results that are the same, or to faults about values that are.

A value that has no functions in it is the same as itself only.

## Key results

- `EnvOf.Alpha.lookup?`, `EnvOf.Alpha.enter?`: names that stand for the same have the same values
- `BinaryOp.apply_alpha`, `Builtin.apply_alpha`: operations
- `ValueOf.IsData.eq_of_alpha`, `EvalErrorOf.IsData.eq_of_alpha`: what has no functions in it
-/

namespace Rpal

variable {φ : Type} {C : Binders → φ → φ → Prop}

mutual

/-- The values are the same up to the names of parameters, if `C` says so of the codes of functions
    in environments that bind corresponding names. -/
inductive ValueOf.Alpha (C : Binders → φ → φ → Prop) : ValueOf φ → ValueOf φ → Prop where
  | integer (n : Int64) : ValueOf.Alpha C (.integer n) (.integer n)
  | string (s : String) : ValueOf.Alpha C (.string s) (.string s)
  | truth (b : Bool) : ValueOf.Alpha C (.truth b) (.truth b)
  | dummy : ValueOf.Alpha C .dummy .dummy
  | tuple {vs vs'} : List.Forall₂ (ValueOf.Alpha C) vs vs' →
      ValueOf.Alpha C (.tuple vs) (.tuple vs')
  | closure {bs c c' env env'} : C bs c c' → EnvOf.Alpha C bs env env' →
      ValueOf.Alpha C (.closure c env) (.closure c' env')
  | eta {bs c c' env env'} : C bs c c' → EnvOf.Alpha C bs env env' →
      ValueOf.Alpha C (.eta c env) (.eta c' env')
  | ystar : ValueOf.Alpha C .ystar .ystar
  | builtin (b : Builtin) : ValueOf.Alpha C (.builtin b) (.builtin b)

/-- The environments bind the names in `bs`, in as many scopes, to values that are the same. -/
inductive EnvOf.Alpha (C : Binders → φ → φ → Prop) : Binders → EnvOf φ → EnvOf φ → Prop where
  | outermost : EnvOf.Alpha C [] .outermost .outermost
  | scope {bs env env'} : EnvOf.Alpha C bs env env' → EnvOf.Alpha C bs (.scope env) (.scope env')
  | bind {bs x x' v v' env env'} : ValueOf.Alpha C v v' → EnvOf.Alpha C bs env env' →
      EnvOf.Alpha C ((x, x') :: bs) (.bind x v env) (.bind x' v' env')

end

/-- The faults are the same, about values that are. -/
inductive TypeFaultOf.Alpha (C : Binders → φ → φ → Prop) :
    TypeFaultOf φ → TypeFaultOf φ → Prop where
  | notTwoIntegers {l l' r r'} : ValueOf.Alpha C l l' → ValueOf.Alpha C r r' →
      Alpha C (.notTwoIntegers l r) (.notTwoIntegers l' r')
  | notTwoTruthValues {op l l' r r'} : ValueOf.Alpha C l l' → ValueOf.Alpha C r r' →
      Alpha C (.notTwoTruthValues op l r) (.notTwoTruthValues op l' r')
  | notBoolean {v v'} : ValueOf.Alpha C v v' → Alpha C (.notBoolean v) (.notBoolean v')
  | notNegatable {v v'} : ValueOf.Alpha C v v' → Alpha C (.notNegatable v) (.notNegatable v')
  | notInteger {v v'} : ValueOf.Alpha C v v' → Alpha C (.notInteger v) (.notInteger v')
  | notAppendable {v v'} : ValueOf.Alpha C v v' → Alpha C (.notAppendable v) (.notAppendable v')
  | incomparable {op l l' r r'} : ValueOf.Alpha C l l' → ValueOf.Alpha C r r' →
      Alpha C (.incomparable op l r) (.incomparable op l' r')
  | dissimilar {l l' r r'} : ValueOf.Alpha C l l' → ValueOf.Alpha C r r' →
      Alpha C (.dissimilar l r) (.dissimilar l' r')
  | notTruthValue {v v'} : ValueOf.Alpha C v v' → Alpha C (.notTruthValue v) (.notTruthValue v')
  | notIndex {v v'} : ValueOf.Alpha C v v' → Alpha C (.notIndex v) (.notIndex v')
  | notClosure {v v'} : ValueOf.Alpha C v v' → Alpha C (.notClosure v) (.notClosure v')
  | notTupleOf {count v v'} : ValueOf.Alpha C v v' → Alpha C (.notTupleOf count v) (.notTupleOf count v')
  | concAlone {v v'} : ValueOf.Alpha C v v' → Alpha C (.concAlone v) (.concAlone v')
  | notTwoStrings {l l' r r'} : ValueOf.Alpha C l l' → ValueOf.Alpha C r r' →
      Alpha C (.notTwoStrings l r) (.notTwoStrings l' r')
  | notString {b v v'} : ValueOf.Alpha C v v' → Alpha C (.notString b v) (.notString b v')
  | notTuple {b v v'} : ValueOf.Alpha C v v' → Alpha C (.notTuple b v) (.notTuple b v')

/-- The faults are the same, about values that are. -/
inductive FaultOf.Alpha (C : Binders → φ → φ → Prop) : FaultOf φ → FaultOf φ → Prop where
  | undeclared (name : String) : Alpha C (.undeclared name) (.undeclared name)
  | type {f f'} : TypeFaultOf.Alpha C f f' → Alpha C (.type f) (.type f')
  | cannotEvaluate {v v'} : ValueOf.Alpha C v v' → Alpha C (.cannotEvaluate v) (.cannotEvaluate v')
  | indexOutOfBounds (index : Int64) : Alpha C (.indexOutOfBounds index) (.indexOutOfBounds index)
  | divisionByZero : Alpha C .divisionByZero .divisionByZero
  | overflow : Alpha C .overflow .overflow
  | unexpectedItem (construct : Kind) : Alpha C (.unexpectedItem construct) (.unexpectedItem construct)

/-- The errors are the same and on the same line, about values that are the same. -/
inductive EvalErrorOf.Alpha (C : Binders → φ → φ → Prop) : EvalErrorOf φ → EvalErrorOf φ → Prop where
  | fault {line f f'} : FaultOf.Alpha C f f' → Alpha C (.fault line f) (.fault line f')
  | stackUnderflow : Alpha C .stackUnderflow .stackUnderflow
  | leftoverValues (count : Nat) : Alpha C (.leftoverValues count) (.leftoverValues count)
  | outputFull : Alpha C .outputFull .outputFull

/-- The results are values that are the same, or errors that are. -/
inductive Except.Alpha {ε α : Type} (E : ε → ε → Prop) (V : α → α → Prop) :
    Except ε α → Except ε α → Prop where
  | ok {a a'} : V a a' → Alpha E V (.ok a) (.ok a')
  | error {e e'} : E e e' → Alpha E V (.error e) (.error e')

/-- The results of an operation are the same. -/
abbrev SettlesAlike (C : Binders → φ → φ → Prop) :
    Except (FaultOf φ) (ValueOf φ) → Except (FaultOf φ) (ValueOf φ) → Prop :=
  Except.Alpha (FaultOf.Alpha C) (ValueOf.Alpha C)

/-! ### Environments -/

namespace EnvOf

variable {bs : Binders} {env env' : EnvOf φ}

/-- Names that stand for the same have values that are the same, or they are the same and have
    none. -/
theorem Alpha.lookup? {bs : Binders} {env env' : EnvOf φ} {n n' : String}
    (h : EnvOf.Alpha C bs env env') (hn : bs.Pairs n n') :
    (∃ v v', env.lookup? n = some v ∧ env'.lookup? n' = some v' ∧ ValueOf.Alpha C v v') ∨
      env.lookup? n = none ∧ env'.lookup? n' = none ∧ n = n' := by
  cases env with
  | outermost =>
    cases h
    exact .inr ⟨rfl, rfl, hn⟩
  | scope env =>
    cases h with
    | scope henv => exact henv.lookup? hn
  | bind x v env =>
    cases h with
    | bind hv henv =>
      -- the names are paired here, in both scopes, or they are looked up further outside
      rw [Binders.Pairs] at hn
      rw [EnvOf.lookup?, EnvOf.lookup?]
      split at hn
      · next hx =>
        rw [if_pos hx, if_pos hn]
        exact .inl ⟨_, _, rfl, rfl, hv⟩
      · next hx =>
        rw [if_neg hx, if_neg hn.1]
        exact henv.lookup? hn.2

/-- Alike values, bound to names in the same places, keep environments alike. -/
theorem Alpha.bindAll {names names' : List String} {vs vs' : List (ValueOf φ)}
    (h : EnvOf.Alpha C bs env env') (hvs : List.Forall₂ (ValueOf.Alpha C) vs vs')
    (hnames : names.length = names'.length) (hlen : vs.length = names.length) :
    EnvOf.Alpha C (bs.inside names names') (env.bindAll names vs) (env'.bindAll names' vs') := by
  induction hvs generalizing bs env env' names names' with
  | nil =>
    obtain rfl := List.length_eq_zero_iff.1 hlen.symm
    obtain rfl := List.length_eq_zero_iff.1 hnames.symm
    exact h
  | cons hv _ ih =>
    match names, names', hnames, hlen with
    | x :: names, x' :: names', hnames, hlen =>
      have hinside : bs.inside (x :: names) (x' :: names') =
          Binders.inside ((x, x') :: bs) names names' := by
        simp [Binders.inside]
      rw [EnvOf.bindAll, EnvOf.bindAll, hinside]
      exact ih (.bind hv h) (by simpa using hnames) (by simpa using hlen)

/-- Functions that bind as many names are entered with the same values for them, or neither is. -/
theorem Alpha.enter? {vars vars' : List String} {v v' : ValueOf φ} (h : EnvOf.Alpha C bs env env')
    (hv : ValueOf.Alpha C v v') (hvars : vars.length = vars'.length) :
    Option.Rel (EnvOf.Alpha C (bs.inside vars vars')) (env.enter? vars v) (env'.enter? vars' v') := by
  match vars, vars', hvars with
  | [], [], _ => exact .some (.scope h)
  | [x], [x'], _ => exact .some (.bind hv (.scope h))
  | x :: y :: names, x' :: y' :: names', hvars =>
    cases hv with
    | tuple hvs =>
      simp only [EnvOf.enter?, hvs.length_eq, hvars]
      split
      · next hlen => exact .some ((EnvOf.Alpha.scope h).bindAll hvs hvars
          (hvs.length_eq.trans (hlen.trans hvars.symm)))
      · exact .none
    | _ => exact .none

end EnvOf

/-! ### Operations -/

/-- An overflow does not depend on names. -/
theorem FaultOf.orOverflow_alpha (n : Option Int64) :
    SettlesAlike C (FaultOf.orOverflow n) (FaultOf.orOverflow n) := by
  cases n with
  | none => exact .error .overflow
  | some n => exact .ok (.integer n)

/-- Integer operations do not depend on names. -/
theorem IntegerOp.apply_alpha (op : IntegerOp) (l r : Int64) :
    SettlesAlike C (op.apply l r) (op.apply l r) := by
  cases op with
  | plus | minus | times => exact FaultOf.orOverflow_alpha _
  | divide =>
    simp only [IntegerOp.apply]
    split
    · exact .error .divisionByZero
    · exact FaultOf.orOverflow_alpha _
  | power =>
    simp only [IntegerOp.apply, reciprocalPower]
    split
    · exact FaultOf.orOverflow_alpha _
    · split
      · exact .error .divisionByZero
      · repeat' split
        all_goals exact .ok (.integer _)
  | ls | le | gr | ge => exact .ok (.truth _)

section

variable {v v' l l' r r' : ValueOf φ}

namespace ValueOf

/-- Alike values are negated alike. -/
theorem negated_alpha (h : ValueOf.Alpha C v v') : SettlesAlike C v.negated v'.negated := by
  cases h with
  | integer n => exact FaultOf.orOverflow_alpha _
  | _ => exact .error (.type (.notNegatable (by constructor <;> assumption)))

/-- Alike values are inverted alike. -/
theorem inverted_alpha (h : ValueOf.Alpha C v v') : SettlesAlike C v.inverted v'.inverted := by
  cases h with
  | truth b => exact .ok (.truth _)
  | _ => exact .error (.type (.notBoolean (by constructor <;> assumption)))

/-- Alike tuples are augmented alike. -/
theorem joined_alpha (hl : ValueOf.Alpha C l l') (hr : ValueOf.Alpha C r r') :
    SettlesAlike C (l.joined r) (l'.joined r') := by
  have hfault : SettlesAlike C (.error (.type (.notTwoStrings l r)))
      (.error (.type (.notTwoStrings l' r'))) := .error (.type (.notTwoStrings hl hr))
  cases hl with
  | string s =>
    cases hr with
    | string t => exact .ok (.string _)
    | _ => exact hfault
  | _ => exact hfault

/-- The elements of alike tuples are alike. -/
theorem element_alpha {vs vs' : List (ValueOf φ)} (hvs : List.Forall₂ (ValueOf.Alpha C) vs vs')
    (h : ValueOf.Alpha C v v') : SettlesAlike C (element vs v) (element vs' v') := by
  cases h with
  | integer index =>
    simp only [element]
    split
    · have hget := List.forall₂_iff_get.1 hvs
      by_cases hi : index.toInt.toNat - 1 < vs.length
      · rw [List.getElem?_eq_getElem hi, List.getElem?_eq_getElem (hget.1 ▸ hi)]
        exact .ok (hget.2 _ hi _)
      · rw [List.getElem?_eq_none (Nat.le_of_not_lt hi),
          List.getElem?_eq_none (hget.1 ▸ Nat.le_of_not_lt hi)]
        exact .error (.indexOutOfBounds index)
    · exact .error (.indexOutOfBounds index)
  | _ => exact .error (.type (.notIndex (by constructor <;> assumption)))

/-- Alike values are equal to alike values, or cannot be compared with them. -/
theorem equal_alpha (op : EqualityOp) (hl : ValueOf.Alpha C l l') (hr : ValueOf.Alpha C r r') :
    Except.Alpha (FaultOf.Alpha C) Eq (ValueOf.equal op l r) (ValueOf.equal op l' r') := by
  have hincomparable : FaultOf.Alpha C (.type (.incomparable op l r))
      (.type (.incomparable op l' r')) := .type (.incomparable hl hr)
  have hdissimilar : FaultOf.Alpha C (.type (.dissimilar l r)) (.type (.dissimilar l' r')) :=
    .type (.dissimilar hl hr)
  cases hl <;> cases hr <;>
    first
    | exact .ok rfl
    | exact .error hincomparable
    | exact .error hdissimilar

/-- Alike values are of the same type. -/
theorem is_alpha (h : ValueOf.Alpha C v v') : v.isInteger = v'.isInteger ∧
    v.isString = v'.isString ∧ v.isTuple = v'.isTuple ∧ v.isDummy = v'.isDummy ∧
    v.isTruthValue = v'.isTruthValue ∧ v.isFunction = v'.isFunction := by
  cases h <;> exact ⟨rfl, rfl, rfl, rfl, rfl, rfl⟩

end ValueOf

/-- An operator comes to the same on values that are the same. -/
theorem BinaryOp.apply_alpha (op : BinaryOp) (hl : ValueOf.Alpha C l l') (hr : ValueOf.Alpha C r r') :
    SettlesAlike C (op.apply l r) (op.apply l' r') := by
  cases op with
  | integer op =>
    -- values that are the same are of one type, so that both are refused or neither
    have hfault : SettlesAlike C (.error (.type (.notTwoIntegers l r)))
        (.error (.type (.notTwoIntegers l' r'))) := .error (.type (.notTwoIntegers hl hr))
    cases hl with
    | integer m =>
      cases hr with
      | integer n => exact op.apply_alpha m n
      | _ => exact hfault
    | _ => exact hfault
  | logical op =>
    have hfault : SettlesAlike C (.error (.type (.notTwoTruthValues op l r)))
        (.error (.type (.notTwoTruthValues op l' r'))) := .error (.type (.notTwoTruthValues hl hr))
    cases hl with
    | truth a =>
      cases hr with
      | truth b => exact .ok (.truth _)
      | _ => exact hfault
    | _ => exact hfault
  | equality op =>
    have hequal := ValueOf.equal_alpha op hl hr
    simp only [BinaryOp.apply]
    generalize ValueOf.equal op l r = result at hequal
    generalize ValueOf.equal op l' r' = result' at hequal
    cases hequal with
    | ok h => exact h ▸ .ok (.truth _)
    | error h => exact .error h
  | aug =>
    cases hl with
    | tuple hvs => exact .ok (.tuple (List.rel_append hvs (.cons hr .nil)))
    | _ => exact .error (.type (.notAppendable (by constructor <;> assumption)))

/-- Alike strings are equal, so a built-in on a string takes them to alike results. -/
theorem Builtin.onString_alpha {b : Builtin} {f : List Char → ValueOf φ}
    (hf : ∀ cs, ValueOf.Alpha C (f cs) (f cs)) (h : ValueOf.Alpha C v v') :
    SettlesAlike C (Builtin.onString b f v) (Builtin.onString b f v') := by
  cases h with
  | string s => exact .ok (hf _)
  | _ => exact .error (.type (.notString (by constructor <;> assumption)))

/-- A built-in on a tuple takes alike tuples to alike results, if its function does. -/
theorem Builtin.onTuple_alpha {b : Builtin}
    {f : List (ValueOf φ) → Except (FaultOf φ) (ValueOf φ)}
    (hf : ∀ vs vs', List.Forall₂ (ValueOf.Alpha C) vs vs' → SettlesAlike C (f vs) (f vs'))
    (h : ValueOf.Alpha C v v') : SettlesAlike C (Builtin.onTuple b f v) (Builtin.onTuple b f v') := by
  cases h with
  | tuple hvs => exact hf _ _ hvs
  | _ => exact .error (.type (.notTuple (by constructor <;> assumption)))

/-- A built-in function comes to the same on values that are the same. -/
theorem Builtin.apply_alpha (b : Builtin) (h : ValueOf.Alpha C v v') :
    SettlesAlike C (b.apply v) (b.apply v') := by
  obtain ⟨hinteger, hstring, htuple, hdummy, htruth, hfunction⟩ := ValueOf.is_alpha h
  cases b with
  | isInteger => exact .ok (hinteger ▸ .truth _)
  | isString => exact .ok (hstring ▸ .truth _)
  | isTuple => exact .ok (htuple ▸ .truth _)
  | isDummy => exact .ok (hdummy ▸ .truth _)
  | isTruthValue => exact .ok (htruth ▸ .truth _)
  | isFunction => exact .ok (hfunction ▸ .truth _)
  | itoS =>
    cases h with
    | integer n => exact .ok (.string _)
    | _ => exact .error (.type (.notInteger (by constructor <;> assumption)))
  | order =>
    refine onTuple_alpha (fun vs vs' hvs => ?_) h
    rw [hvs.length_eq]
    exact FaultOf.orOverflow_alpha _
  | null =>
    refine onTuple_alpha (fun vs vs' hvs => ?_) h
    -- a tuple is empty if the other is
    cases hvs with
    | nil => exact .ok (.truth true)
    | cons => exact .ok (.truth false)
  | stem =>
    rw [Builtin.apply, Builtin.apply]
    exact onString_alpha (fun _ => .string _) h
  | stern =>
    rw [Builtin.apply, Builtin.apply]
    exact onString_alpha (fun _ => .string _) h
  | neg => exact ValueOf.negated_alpha h
  | print => exact .ok .dummy
  | conc => exact .error (.type (.concAlone h))

end

/-! ### Values without functions -/

/-- There is no function in the value: it is a value of programs that have no code for one. -/
def ValueOf.IsData (v : ValueOf φ) : Prop :=
  ∃ w : ValueOf Empty, w.map Empty.elim = v

/-- There is no function in the values that the error is about. -/
def EvalErrorOf.IsData (e : EvalErrorOf φ) : Prop :=
  ∃ d : EvalErrorOf Empty, d.map Empty.elim = e

mutual

/-- A value without functions is alike itself only. -/
theorem ValueOf.eq_of_alpha_map : ∀ {w : ValueOf Empty} {v : ValueOf φ},
    ValueOf.Alpha C (w.map Empty.elim) v → v = w.map Empty.elim
  | .integer _, _, h => by cases h; rfl
  | .string _, _, h => by cases h; rfl
  | .truth _, _, h => by cases h; rfl
  | .dummy, _, h => by cases h; rfl
  | .ystar, _, h => by cases h; rfl
  | .builtin _, _, h => by cases h; rfl
  | .tuple ws, _, h => by
    rw [ValueOf.map] at h ⊢
    cases h with
    | tuple hvs => rw [ValueOf.eq_of_forall₂_alpha_map hvs]

/-- Values without functions are alike themselves only. -/
theorem ValueOf.eq_of_forall₂_alpha_map : ∀ {ws : List (ValueOf Empty)} {vs : List (ValueOf φ)},
    List.Forall₂ (ValueOf.Alpha C) (ValueOf.mapAll Empty.elim ws) vs →
      vs = ValueOf.mapAll Empty.elim ws
  | [], _, h => by cases h; rfl
  | w :: ws, _, h => by
    rw [ValueOf.mapAll] at h ⊢
    cases h with
    | cons hv hvs => rw [ValueOf.eq_of_alpha_map hv, ValueOf.eq_of_forall₂_alpha_map hvs]

end

/-- A value without functions is the same as itself only. -/
theorem ValueOf.IsData.eq_of_alpha {v v' : ValueOf φ} (hv : v.IsData) (h : ValueOf.Alpha C v v') :
    v' = v := by
  obtain ⟨w, rfl⟩ := hv
  exact ValueOf.eq_of_alpha_map h

/-- A type error about values without functions is alike itself only. -/
theorem TypeFaultOf.eq_of_alpha_map {d : TypeFaultOf Empty} {f : TypeFaultOf φ}
    (h : TypeFaultOf.Alpha C (d.map Empty.elim) f) : f = d.map Empty.elim := by
  cases d with
  | notTwoIntegers l r | dissimilar l r | notTwoStrings l r | notTwoTruthValues _ l r
  | incomparable _ l r =>
    cases h
    rename_i hl hr
    rw [ValueOf.eq_of_alpha_map hl, ValueOf.eq_of_alpha_map hr, TypeFaultOf.map]
  | _ =>
    cases h
    rename_i hv
    rw [ValueOf.eq_of_alpha_map hv, TypeFaultOf.map]

/-- An error about values without functions is the same as itself only. -/
theorem EvalErrorOf.IsData.eq_of_alpha {e e' : EvalErrorOf φ} (he : e.IsData)
    (h : EvalErrorOf.Alpha C e e') : e' = e := by
  obtain ⟨d, rfl⟩ := he
  cases d with
  | fault line f =>
    rw [EvalErrorOf.map] at h ⊢
    cases h with
    | fault h =>
      -- only two faults show values
      cases f with
      | type f =>
        cases h with
        | type h => rw [TypeFaultOf.eq_of_alpha_map h, FaultOf.map]
      | cannotEvaluate v =>
        cases h with
        | cannotEvaluate h => rw [ValueOf.eq_of_alpha_map h, FaultOf.map]
      | _ =>
        cases h
        rfl
  | _ =>
    cases h
    rfl

end Rpal
