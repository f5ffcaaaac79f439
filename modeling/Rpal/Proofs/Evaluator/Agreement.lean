import Rpal.Proofs.Evaluator.Direct
import Rpal.Proofs.Tree.Source

/-!
# Parsed trees and their canonical forms have the same values

Which canonical form a parsed tree comes into, as a relation with one rule for each construct, and a
proof that both are evaluated alike: to the same value, with the same output, or to the same error.
Functions are compared as pairs, of the code of the parsed tree and the code of the canonical form.
What is done with values does not depend on the code in them, so that a value of both evaluators is
a value with pairs for code, seen from one side or the other.

`Conc` takes a second operand only in canonical form. It must not be among the values.

## Key results

- `agrees_value`: the value of a parsed tree, given what is done one level deeper
- `agrees_level`: what is done one level deeper, by induction on the limit
-/

namespace Rpal

open Rpal.Tree

/-! ### Canonical forms -/

/-- The tree applies a function that binds `vars` to `value`, to evaluate `body`. -/
inductive Tree.Binds (line : Nat) (vars : List String) (value body : Tree Numbered) :
    Tree Numbered → Prop where
  | mk {g f x} : g.label.kind = .gamma → g.label.line = line → f.label.kind = .lambda →
      x.boundNames = vars → Binds line vars value body (node g [node f [x, body], value])

mutual

/-- The second tree is the canonical form of the first, an expression, or of the right side of the
    first, a definition. The numbers of functions are the same. -/
inductive Tree.Becomes : Tree Numbered → Tree Numbered → Prop where
  | plain {l m n ts us} : l.kind.takes ts.length = true →
      (l.kind = .identifier → Builtin.ofName? l.content ≠ some .conc) →
      AllBecome ts us → Becomes (node ⟨l, m⟩ ts) (node ⟨l, n⟩ us)
  | equation {a x e u} : a.label.kind = .equation → Becomes e u → Becomes (node a [x, e]) u
  | letIn {a d e v u w} : a.label.kind = .letIn → Becomes d v → Becomes e u →
      Binds a.label.line d.definedNames v u w → Becomes (node a [d, e]) w
  | whereIn {a d e v u w} : a.label.kind = .whereIn → Becomes d v → Becomes e u →
      Binds a.label.line d.definedNames v u w → Becomes (node a [e, d]) w
  | within {a d e v u w} : a.label.kind = .within → Becomes d v → Becomes e u →
      Binds a.label.line d.definedNames v u w → Becomes (node a [d, e]) w
  | simultaneous {a b ds us} : a.label.kind = .simultaneous → b.label.kind = .tau →
      AllBecome ds us → Becomes (node a ds) (node b us)
  | recursive {a g y f d x u} : a.label.kind = .recursive → g.label.kind = .gamma →
      y.label.kind = .ystar → f.label.kind = .lambda → f.number = a.number →
      x.boundNames = d.definedNames → Becomes d u →
      Becomes (node a [d]) (node g [leaf y, node f [x, u]])
  | lambda {a rest u} : a.label.kind = .lambda → Curries rest u → Becomes (node a rest) u
  | functionForm {a f rest u} : a.label.kind = .functionForm → Curries rest u →
      Becomes (node a (f :: rest)) u
  | atName {a g h e₁ n e₂ u₁ m u₂} : a.label.kind = .atName → g.label.kind = .gamma →
      g.label.line = a.label.line → h.label.kind = .gamma → h.label.line = a.label.line →
      Becomes e₁ u₁ → Becomes n m → Becomes e₂ u₂ →
      Becomes (node a [e₁, n, e₂]) (node g [node h [m, u₁], u₂])

/-- Every tree of the second list is the canonical form of the one at its place in the first. -/
inductive Tree.AllBecome : List (Tree Numbered) → List (Tree Numbered) → Prop where
  | nil : AllBecome [] []
  | cons {t u ts us} : Becomes t u → AllBecome ts us → AllBecome (t :: ts) (u :: us)

/-- The tree has one lambda for each parameter, and inside of them the canonical form of the
    body. -/
inductive Tree.Curries : List (Tree Numbered) → Tree Numbered → Prop where
  | body {e u} : Becomes e u → Curries [e] u
  | parameter {v t rest f x u} : f.label.kind = .lambda → f.number = v.label.number →
      x.boundNames = v.boundNames → Curries (t :: rest) u →
      Curries (v :: t :: rest) (node f [x, u])

end

/-! ### Values of both evaluators -/

/-- The code of a function of a parsed tree and its code in canonical form. -/
structure Pairing where
  procedure : Procedure
  abstraction : Abstraction Numbered
  number_eq : abstraction.label.number = procedure.number
  vars_eq : abstraction.vars = procedure.vars
  curries : Curries procedure.rest abstraction.body

instance : FunctionCode Pairing where
  number c := c.procedure.number
  vars c := c.procedure.vars

/-- What both evaluators have: no fixpoint finder, and not `Conc`. -/
def Pairing.parts : Parts Pairing where
  ystar := False
  builtin b := b ≠ .conc
  code _ _ := True

namespace Direct

/-- A value with pairs of functions, seen from both sides. -/
def Same (v : DirectValue) (v' : TreeValue Numbered) : Prop :=
  ∃ w : ValueOf Pairing, w.MadeOf Pairing.parts ∧ w.map Pairing.procedure = v ∧
    w.map Pairing.abstraction = v'

/-- Values with pairs of functions, seen from both sides. -/
def AllSame (vs : List DirectValue) (vs' : List (TreeValue Numbered)) : Prop :=
  ∃ ws : List (ValueOf Pairing), (∀ w ∈ ws, w.MadeOf Pairing.parts) ∧
    ws.map (ValueOf.map Pairing.procedure) = vs ∧ ws.map (ValueOf.map Pairing.abstraction) = vs'

/-- The value in canonical form is the same, and no operand was taken for it. -/
def Returns (v : DirectValue) (r : TreeValue Numbered × Bool) : Prop :=
  Same v r.1 ∧ r.2 = false

/-- Both evaluations are beyond the limit, or both end: after the same values were printed, with
    results that are related by `Q` or with the same error. -/
inductive Agrees {β β' : Type} (Q : β → β' → Prop) :
    Evaluation Procedure β → Evaluation (Abstraction Numbered) β' → Prop where
  | unfinished : Agrees Q .unfinished .unfinished
  | returns {printed printed' b b'} : AllSame printed printed' → Q b b' →
      Agrees Q (.ended printed (.ok b)) (.ended printed' (.ok b'))
  | fails {printed printed'} {e : EvalErrorOf Pairing} : AllSame printed printed' →
      Agrees Q (.ended printed (.error (e.map Pairing.procedure)))
        (.ended printed' (.error (e.map Pairing.abstraction)))

/-- No values are the same as no values. -/
theorem AllSame.nil : AllSame [] [] :=
  ⟨[], List.forall_mem_nil _, rfl, rfl⟩

/-- Lists of the same values can be put together. -/
theorem AllSame.append {vs ws : List DirectValue} {vs' ws' : List (TreeValue Numbered)}
    (h : AllSame vs vs') (h' : AllSame ws ws') : AllSame (vs ++ ws) (vs' ++ ws') := by
  obtain ⟨xs, hxs, rfl, rfl⟩ := h
  obtain ⟨ys, hys, rfl, rfl⟩ := h'
  exact ⟨xs ++ ys, List.forall_mem_append.2 ⟨hxs, hys⟩, List.map_append, List.map_append⟩

/-- A list of the same values can be extended in front. -/
theorem AllSame.cons {v : DirectValue} {v' : TreeValue Numbered} {vs : List DirectValue}
    {vs' : List (TreeValue Numbered)} (h : Same v v') (hs : AllSame vs vs') :
    AllSame (v :: vs) (v' :: vs') := by
  obtain ⟨w, hw, rfl, rfl⟩ := h
  obtain ⟨ws, hws, rfl, rfl⟩ := hs
  exact ⟨w :: ws, List.forall_mem_cons.2 ⟨hw, hws⟩, rfl, rfl⟩

/-- Tuples of the same values. -/
theorem AllSame.tuple {vs : List DirectValue} {vs' : List (TreeValue Numbered)}
    (h : AllSame vs vs') : Same (.tuple vs) (.tuple vs') := by
  obtain ⟨ws, hws, rfl, rfl⟩ := h
  refine ⟨.tuple ws, ValueOf.allMadeOf_iff.2 hws, ?_, ?_⟩
  · rw [ValueOf.map, ValueOf.mapAll_eq_map]
  · rw [ValueOf.map, ValueOf.mapAll_eq_map]

/-- The same values are printed alike. -/
theorem Same.render_eq {v : DirectValue} {v' : TreeValue Numbered} (h : Same v v') :
    v.render = v'.render := by
  obtain ⟨w, hw, rfl, rfl⟩ := h
  have hdirect : (w.map Pairing.procedure).render = w.render :=
    ValueOf.render_map (g := Pairing.procedure) (fun _ _ _ => ⟨rfl, rfl⟩) hw
  have hcanonical : (w.map Pairing.abstraction).render = w.render :=
    ValueOf.render_map (g := Pairing.abstraction) (fun c _ _ => ⟨c.number_eq, c.vars_eq⟩) hw
  rw [hdirect, hcanonical]

/-- The same values are printed alike. -/
theorem AllSame.output_eq {vs : List DirectValue} {vs' : List (TreeValue Numbered)}
    (h : AllSame vs vs') : output vs = output vs' := by
  obtain ⟨ws, hws, rfl, rfl⟩ := h
  induction ws with
  | nil => rfl
  | cons w ws ih =>
    obtain ⟨hw, hws⟩ := List.forall_mem_cons.1 hws
    have hsame : Same (w.map Pairing.procedure) (w.map Pairing.abstraction) := ⟨w, hw, rfl, rfl⟩
    rw [List.map_cons, List.map_cons, output, output, hsame.render_eq, ih hws]

namespace Agrees

variable {β β' γ γ' : Type} {Q : β → β' → Prop} {Q' : γ → γ' → Prop}
  {x : Evaluation Procedure β} {y : Evaluation (Abstraction Numbered) β'}

/-- Results that are related agree. -/
theorem pure {b : β} {b' : β'} (h : Q b b') : Agrees Q (pure b) (pure b') :=
  .returns .nil h

/-- Evaluations agree behind the same output. -/
theorem after {printed : List DirectValue} {printed' : List (TreeValue Numbered)}
    (h : AllSame printed printed') (hxy : Agrees Q x y) :
    Agrees Q (x.after printed) (y.after printed') := by
  cases hxy with
  | unfinished => exact .unfinished
  | returns hprinted hQ => exact .returns (h.append hprinted) hQ
  | fails hprinted => exact .fails (h.append hprinted)

/-- One evaluation after the other. -/
theorem andThen {f : β → Evaluation Procedure γ} {g : β' → Evaluation (Abstraction Numbered) γ'}
    (h : Agrees Q x y) (hf : ∀ b b', Q b b' → Agrees Q' (f b) (g b')) :
    Agrees Q' (x >>= f) (y >>= g) := by
  cases h with
  | unfinished => exact .unfinished
  | returns hprinted hQ => exact (hf _ _ hQ).after hprinted
  | fails hprinted => exact .fails hprinted

/-- Evaluations that fail in the same way agree. -/
theorem fail (line : Nat) (fault : FaultOf Pairing) :
    Agrees Q (.fail line (fault.map Pairing.procedure))
      (.fail line (fault.map Pairing.abstraction)) :=
  .fails (e := .fault line fault) .nil

/-- An operation has the same result from both sides. -/
theorem settle (line : Nat) {result : Except (FaultOf Pairing) (ValueOf Pairing)}
    (h : ∀ w, result = .ok w → w.MadeOf Pairing.parts) :
    Agrees Same (.settle line (mapResult Pairing.procedure result))
      (.settle line (mapResult Pairing.abstraction result)) := by
  cases result with
  | error fault => exact .fail line fault
  | ok w => exact .pure ⟨w, h w rfl, rfl, rfl⟩

/-- The result in canonical form may be read in another way. -/
theorem reread {f : β' → γ'} {Q' : β → γ' → Prop} (h : Agrees Q x y)
    (hQ : ∀ b b', Q b b' → Q' b (f b')) : Agrees Q' x (y >>= fun b => Pure.pure (f b)) := by
  cases h with
  | unfinished => exact .unfinished
  | fails hprinted => exact .fails hprinted
  | returns hprinted hb =>
    change Agrees Q' _ (.ended (_ ++ []) _)
    rw [List.append_nil]
    exact .returns hprinted (hQ _ _ hb)

/-- No operand is taken for the value. -/
theorem untaken {x : Evaluation Procedure DirectValue}
    {y : Evaluation (Abstraction Numbered) (TreeValue Numbered)} (h : Agrees Same x y) :
    Agrees Returns x (do return (← y, false)) :=
  h.reread fun _ _ hsame => ⟨hsame, rfl⟩

/-- The value alone. -/
theorem result {x : Evaluation Procedure DirectValue}
    {y : Evaluation (Abstraction Numbered) (TreeValue Numbered × Bool)} (h : Agrees Returns x y) :
    Agrees Same x (do
      let (v, _) ← y
      return v) :=
  h.reread fun _ _ hreturns => hreturns.1

/-- The same is seen of both evaluations. -/
theorem shown_eq {x : Evaluation Procedure DirectValue}
    {y : Evaluation (Abstraction Numbered) (TreeValue Numbered)} (h : Agrees Same x y) :
    x.shown = y.shown := by
  cases h with
  | unfinished => rfl
  | returns hprinted hsame =>
    rw [Evaluation.shown, Evaluation.shown, hprinted.output_eq, hsame.render_eq]
  | @fails printed printed' e hprinted =>
    have hdirect : (e.map Pairing.procedure).message = e.message :=
      EvalErrorOf.message_map (g := Pairing.procedure) (fun _ => ⟨rfl, rfl⟩) e
    have hcanonical : (e.map Pairing.abstraction).message = e.message :=
      EvalErrorOf.message_map (g := Pairing.abstraction) (fun c => ⟨c.number_eq, c.vars_eq⟩) e
    rw [Evaluation.shown, Evaluation.shown, hprinted.output_eq, hdirect, hcanonical]

end Agrees

/-! ### Constructs -/

/-- What is done one level deeper, in both evaluators. -/
structure Level.Agrees (below : Level) (application : Tree.Application Numbered) : Prop where
  apply {f v : ValueOf Pairing} (line : Nat) (operand? : Option (TreeValue Numbered)) :
    f.MadeOf Pairing.parts → v.MadeOf Pairing.parts →
    Direct.Agrees Returns (below.apply line (f.map Pairing.procedure) (v.map Pairing.procedure))
      (application line (f.map Pairing.abstraction) (v.map Pairing.abstraction) operand?)
  /-- A scope is opened in canonical form by applying a function. -/
  bind {env : EnvOf Pairing} {v : ValueOf Pairing} (c : Pairing) (line : Nat)
    (operand? : Option (TreeValue Numbered)) :
    env.MadeOf Pairing.parts → v.MadeOf Pairing.parts →
    Direct.Agrees Returns
      (below.bind line c.procedure.vars (env.map Pairing.procedure) (v.map Pairing.procedure)
        c.procedure.rest)
      (application line (.closure c.abstraction (env.map Pairing.abstraction))
        (v.map Pairing.abstraction) operand?)
  /-- A fixpoint is found in canonical form by applying the fixpoint finder. -/
  fixpoint {env : EnvOf Pairing} (c : Pairing) (line : Nat)
    (operand? : Option (TreeValue Numbered)) : env.MadeOf Pairing.parts →
    Direct.Agrees Returns (below.fixpoint c.procedure (env.map Pairing.procedure))
      (application line .ystar (.closure c.abstraction (env.map Pairing.abstraction)) operand?)

section

variable {below : Level} {application : Tree.Application Numbered} {env : EnvOf Pairing}

/-- A construct that is no application and no conditional has the value of an operation. -/
theorem value_plain {env : DirectEnv} {a : Numbered} {ts : List (Tree Numbered)}
    (htakes : a.label.kind.takes ts.length = true)
    (hcond : a.label.kind ≠ .conditional) (hgamma : a.label.kind ≠ .gamma) :
    value below env (node a ts) = (do
      let vs ← values below env ts
      .settle a.label.line (a.label.operate env vs)) := by
  rw [value.eq_def]
  cases hk : a.label.kind with
  | conditional => exact absurd hk hcond
  | gamma => exact absurd hk hgamma
  | identifier | integer | string | truth | nil | dummy | not | neg | binary | tau =>
    simp only [hk]
  | _ =>
    rw [hk] at htakes
    cases htakes

/-- The value of an operation on the same values. -/
theorem agrees_operate {l : Label} {vs : List DirectValue} {vs' : List (TreeValue Numbered)}
    (hystar : l.kind ≠ .ystar)
    (hconc : l.kind = .identifier → Builtin.ofName? l.content ≠ some .conc)
    (henv : env.MadeOf Pairing.parts) (h : AllSame vs vs') :
    Agrees Same (.settle l.line (l.operate (env.map Pairing.procedure) vs))
      (.settle l.line (l.operate (env.map Pairing.abstraction) vs')) := by
  obtain ⟨ws, hws, rfl, rfl⟩ := h
  rw [Label.operate_map, Label.operate_map]
  refine .settle l.line fun w hw => Label.madeOf_of_operate henv hws ?_ (absurd · hystar) hw
  rintro hk b hb rfl
  exact hconc hk hb

/-- An application: the operand, then the operator, and then the function of the operator. -/
theorem agrees_application (hbelow : below.Agrees application) {g : Numbered}
    {u₁ u₂ : Tree Numbered} {x y : Evaluation Procedure DirectValue}
    (operand? : Option (TreeValue Numbered)) (hg : g.label.kind = .gamma)
    (hx : Agrees Returns x (u₂.eval application (env.map Pairing.abstraction) none))
    (hy : ∀ v, Agrees Returns y (u₁.eval application (env.map Pairing.abstraction) (some v))) :
    Agrees Returns
      (do
        let v ← x
        let f ← y
        below.apply g.label.line f v)
      ((node g [u₁, u₂]).eval application (env.map Pairing.abstraction) operand?) := by
  rw [eval_gamma hg]
  refine hx.andThen ?_
  rintro v ⟨v', taken⟩ ⟨⟨w, hw, rfl, rfl⟩, -⟩
  refine (hy _).andThen ?_
  rintro f ⟨f', taken⟩ ⟨⟨wf, hwf, rfl, rfl⟩, htaken⟩
  subst htaken
  exact hbelow.apply g.label.line operand? hwf hw

/-- A definition's scope. -/
theorem agrees_binds (hbelow : below.Agrees application) (henv : env.MadeOf Pairing.parts)
    {line : Nat} {vars : List String} {v w u : Tree Numbered} {rest : List (Tree Numbered)}
    {x : Evaluation Procedure DirectValue} (operand? : Option (TreeValue Numbered))
    (hw : Binds line vars v u w) (hrest : Curries rest u)
    (hv : Agrees Returns x (v.eval application (env.map Pairing.abstraction) none)) :
    Agrees Returns
      (x >>= fun b => below.bind line vars (env.map Pairing.procedure) b rest)
      (w.eval application (env.map Pairing.abstraction) operand?) := by
  cases hw with
  | @mk g f x hg hline hf hvars =>
    rw [eval_gamma hg]
    refine hv.andThen ?_
    rintro b ⟨b', taken⟩ ⟨⟨w, hw, rfl, rfl⟩, -⟩
    subst hline hvars
    -- the scope is the code of a function in both evaluators, with parameters still to come in one
    let c : Pairing :=
      { procedure := ⟨f.number, x.boundNames, rest⟩, abstraction := ⟨f, x.boundNames, u⟩
        number_eq := rfl, vars_eq := rfl, curries := hrest }
    have hbind := hbelow.bind c g.label.line operand? henv hw
    simp only [eval_lambda (a := f) hf, Evaluation.pure_bind]
    exact hbind

mutual

/-- A parsed tree and its canonical form have the same value. -/
theorem agrees_value (hbelow : below.Agrees application) (henv : env.MadeOf Pairing.parts)
    {t u : Tree Numbered} (h : Becomes t u) (operand? : Option (TreeValue Numbered)) :
    Agrees Returns (value below (env.map Pairing.procedure) t)
      (u.eval application (env.map Pairing.abstraction) operand?) := by
  cases h with
  | @plain l m n ts us htakes hconc hs =>
    by_cases hcond : l.kind = .conditional
    · rw [hcond] at htakes
      obtain ⟨p, e₁, e₂, rfl⟩ := List.length_eq_three.1 (of_decide_eq_true htakes)
      -- only one branch is evaluated, and an operand that is offered is left to it
      obtain - | ⟨hp, - | ⟨h₁, - | ⟨h₂, - | -⟩⟩⟩ := hs
      rw [value_conditional hcond, eval_conditional hcond]
      refine (agrees_value hbelow henv hp none).andThen ?_
      rintro v ⟨v', taken⟩ ⟨⟨w, hw, rfl, rfl⟩, -⟩
      cases w with
      | truth b =>
        cases b with
        | true => exact agrees_value hbelow henv h₁ operand?
        | false => exact agrees_value hbelow henv h₂ operand?
      | _ => exact .fail l.line (.type (.notTruthValue _))
    · by_cases hgamma : l.kind = .gamma
      · rw [hgamma] at htakes
        obtain ⟨e₁, e₂, rfl⟩ := List.length_eq_two.1 (of_decide_eq_true htakes)
        obtain - | ⟨h₁, - | ⟨h₂, - | -⟩⟩ := hs
        -- the operator may take the operand, which is evaluated already
        rw [value_gamma hgamma]
        exact agrees_application (g := ⟨l, n⟩) hbelow operand? hgamma
          (agrees_value hbelow henv h₂ none) fun v => agrees_value hbelow henv h₁ (some v)
      · have hne {kind : Kind} (hk : kind.takes ts.length = false) : l.kind ≠ kind := by
          rintro rfl
          exact Bool.noConfusion (hk.symm.trans htakes)
        rw [value_plain htakes hcond hgamma, eval_plain (hne rfl) hcond hgamma]
        refine (agrees_values hbelow henv hs).andThen ?_
        rintro vs vs' hvs
        exact (agrees_operate (hne rfl) hconc henv hvs).untaken
  | equation ha he =>
    rw [value_equation ha]
    exact agrees_value hbelow henv he operand?
  | letIn ha hd he hw =>
    rw [value_letIn ha]
    exact agrees_binds hbelow henv operand? hw (.body he) (agrees_value hbelow henv hd none)
  | whereIn ha hd he hw =>
    rw [value_whereIn ha]
    exact agrees_binds hbelow henv operand? hw (.body he) (agrees_value hbelow henv hd none)
  | within ha hd he hw =>
    rw [value_within ha]
    exact agrees_binds hbelow henv operand? hw (.body he) (agrees_value hbelow henv hd none)
  | @simultaneous a b ds us ha hb hds =>
    have hne {kind : Kind} (hk : .tau ≠ kind) : b.label.kind ≠ kind := hb ▸ hk
    rw [value_simultaneous ha, eval_plain (hne (by decide)) (hne (by decide)) (hne (by decide))]
    refine (agrees_values hbelow henv hds).andThen ?_
    rintro vs vs' hvs
    have hoperate : b.label.operate (env.map Pairing.abstraction) vs' = .ok (.tuple vs') := by
      rw [Label.operate.eq_def, hb]
    have hsettle : Agrees Same (pure (.tuple vs)) (.settle b.label.line (.ok (.tuple vs'))) :=
      .pure hvs.tuple
    exact (hoperate ▸ hsettle).untaken
  | @recursive a g y f d x u ha hg hy hf hnumber hvars hd =>
    rw [value_recursive ha, eval_gamma hg]
    -- the function whose fixpoint is found: the names of the definition around its right side
    let c : Pairing :=
      { procedure := ⟨a.number, d.definedNames, [d]⟩, abstraction := ⟨f, x.boundNames, u⟩
        number_eq := hnumber, vars_eq := hvars, curries := .body hd }
    have hfixpoint := hbelow.fixpoint c g.label.line operand? henv
    simp only [eval_lambda (a := f) hf, eval_ystar (a := y) hy, Evaluation.pure_bind]
    exact hfixpoint
  | lambda ha hrest =>
    rw [value_lambda ha]
    exact agrees_function hbelow henv hrest operand?
  | functionForm ha hrest =>
    rw [value_functionForm ha]
    exact agrees_function hbelow henv hrest operand?
  | @atName a g h e₁ n e₂ u₁ m u₂ ha hg hgline hh hhline h₁ hn h₂ =>
    -- the name is applied to the left operand first, and offered the operand on the right
    have hinner (v : TreeValue Numbered) :=
      agrees_application hbelow (some v) hh (agrees_value hbelow henv h₁ none)
        fun v => agrees_value hbelow henv hn (some v)
    have houter :=
      agrees_application hbelow operand? hg (agrees_value hbelow henv h₂ none) hinner
    simp only [Evaluation.bind_assoc, hgline, hhline] at houter
    rw [value_atName ha]
    exact houter

/-- Several parsed trees and their canonical forms have the same values. -/
theorem agrees_values (hbelow : below.Agrees application) (henv : env.MadeOf Pairing.parts)
    {ts us : List (Tree Numbered)} (h : AllBecome ts us) :
    Agrees AllSame (values below (env.map Pairing.procedure) ts)
      (evalAll application (env.map Pairing.abstraction) us) := by
  cases h with
  | nil =>
    rw [values, evalAll]
    exact .pure .nil
  | cons ht hs =>
    rw [values, evalAll]
    refine (agrees_values hbelow henv hs).andThen ?_
    rintro vs vs' hvs
    refine (agrees_value hbelow henv ht none).andThen ?_
    rintro v ⟨v', taken⟩ ⟨hv, -⟩
    exact .pure (.cons hv hvs)

/-- Parameters, one after the other, and one lambda for each. -/
theorem agrees_function (hbelow : below.Agrees application) (henv : env.MadeOf Pairing.parts)
    {rest : List (Tree Numbered)} {u : Tree Numbered} (h : Curries rest u)
    (operand? : Option (TreeValue Numbered)) :
    Agrees Returns (function below (env.map Pairing.procedure) rest)
      (u.eval application (env.map Pairing.abstraction) operand?) := by
  cases h with
  | body he =>
    rw [function]
    exact agrees_value hbelow henv he operand?
  | @parameter v t rest f x u hf hnumber hvars hrest =>
    rw [function, eval_lambda hf]
    let c : Pairing :=
      { procedure := ⟨v.label.number, v.boundNames, t :: rest⟩, abstraction := ⟨f, x.boundNames, u⟩
        number_eq := hnumber, vars_eq := hvars, curries := hrest }
    exact .pure ⟨⟨.closure c env, ⟨trivial, henv⟩, rfl, rfl⟩, rfl⟩

end

end

/-! ### Levels -/

section

variable {limit line : Nat} {env : EnvOf Pairing} {v : ValueOf Pairing}

/-- A function is applied by evaluating its body in a new scope. -/
theorem agrees_call (hbelow : (level limit).Agrees (Evaluation.apply limit)) (c : Pairing)
    (henv : env.MadeOf Pairing.parts) (hv : v.MadeOf Pairing.parts) :
    Agrees Same
      ((level (limit + 1)).bind line c.procedure.vars (env.map Pairing.procedure)
        (v.map Pairing.procedure) c.procedure.rest)
      (Evaluation.call (Evaluation.apply limit) line c.abstraction (env.map Pairing.abstraction)
        (v.map Pairing.abstraction)) := by
  rw [Evaluation.call, c.vars_eq]
  simp only [level, EnvOf.enter?_map]
  cases hinner : env.enter? c.procedure.vars v with
  | none => exact .fail line (.type (.notTupleOf c.procedure.vars.length v))
  | some inner =>
    exact (agrees_function hbelow (henv.enter? hv hinner) c.curries none).result

/-- What is done one level deeper is the same in both evaluators. -/
theorem agrees_level (limit : Nat) : (level limit).Agrees (Evaluation.apply limit) := by
  induction limit with
  | zero =>
    exact ⟨fun _ _ _ _ => .unfinished, fun _ _ _ _ _ => .unfinished, fun _ _ _ _ => .unfinished⟩
  | succ limit ih =>
    refine ⟨?_, ?_, ?_⟩
    · intro f v line operand? hf hv
      cases f with
      | closure c env => exact (agrees_call ih c hf.2 hv).untaken
      -- the function is applied to its fixpoint, and the result to the argument
      | eta c env =>
        refine (agrees_call ih c hf.2 hf).andThen ?_
        rintro f f' ⟨w, hw, rfl, rfl⟩
        exact ih.apply line operand? hw hv
      | tuple elements =>
        have hresult := ValueOf.element_settles (ValueOf.allMadeOf_iff.1 hf) v
        have hsettle := Agrees.settle line fun w hw => hresult.madeOf hw
        rw [← ValueOf.element_map, ← ValueOf.element_map] at hsettle
        rw [ValueOf.map, ValueOf.map, ValueOf.mapAll_eq_map, ValueOf.mapAll_eq_map]
        exact hsettle.untaken
      | builtin b =>
        have hresult := Builtin.apply_settles Pairing.parts b v
        have hsettle := Agrees.settle line fun w hw => hresult.madeOf hw
        rw [← Builtin.apply_map, ← Builtin.apply_map] at hsettle
        cases b with
        | conc => exact absurd rfl hf
        | print =>
          have hsame : Same (v.map Pairing.procedure) (v.map Pairing.abstraction) := ⟨v, hv, rfl, rfl⟩
          exact .returns (.cons hsame .nil) ⟨⟨.dummy, trivial, rfl, rfl⟩, rfl⟩
        | _ => exact hsettle.untaken
      | ystar => exact absurd hf id
      | _ => exact .fail line (.cannotEvaluate _)
    · intro env v c line operand? henv hv
      exact (agrees_call ih c henv hv).untaken
    · intro env c line operand? henv
      have heta : Same (.eta c.procedure (env.map Pairing.procedure))
          (.eta c.abstraction (env.map Pairing.abstraction)) :=
        ⟨.eta c env, ⟨trivial, henv⟩, rfl, rfl⟩
      exact .pure ⟨heta, rfl⟩

end

end Direct

end Rpal
