import Rpal.Proofs.Evaluator.Basic

/-!
# Evaluation does not depend on the numbers of lambdas

The evaluator looks at what labels say of constructs, and at nothing else that may be in them. So
labels can be replaced before an evaluation or after it, in the values that it makes. The numbers of
lambdas, in particular, can be left out.

## Key results

- `Evaluation.map_bind`: evaluations one after the other
- `Tree.eval_map`: a tree, given that applications do not depend on labels
- `Tree.evaluate_map`: a whole program
-/

namespace Rpal

/-- The code with other labels. -/
def Abstraction.map {α β : Type} (f : α → β) (c : Abstraction α) : Abstraction β where
  label := f c.label
  vars := c.vars
  body := c.body.map f

namespace Evaluation

variable {φ ψ β γ β' γ' : Type} (f : φ → ψ) {g : β → β'} {g' : γ → γ'}

/-- The evaluation with other code in the values. -/
def map (g : β → β') : Evaluation φ β → Evaluation ψ β'
  | unfinished => unfinished
  | ended printed (.ok b) => ended (printed.map (ValueOf.map f)) (.ok (g b))
  | ended printed (.error e) => ended (printed.map (ValueOf.map f)) (.error (e.map f))

/-- Output that comes before is relabeled with the rest. -/
theorem map_after (printed : List (ValueOf φ)) (x : Evaluation φ β) :
    (x.after printed).map f g = (x.map f g).after (printed.map (ValueOf.map f)) := by
  match x with
  | unfinished => rfl
  | ended more (.ok b) | ended more (.error e) => simp only [after, map, List.map_append]

/-- One evaluation after the other. -/
theorem map_bind (x : Evaluation φ β) {k : β → Evaluation φ γ} {k' : β' → Evaluation ψ γ'}
    (hk : ∀ b, (k b).map f g' = k' (g b)) : (x >>= k).map f g' = x.map f g >>= k' := by
  match x with
  | unfinished => rfl
  | ended printed (.error e) => rfl
  | ended printed (.ok b) =>
    change ((k b).after printed).map f g' = (k' (g b)).after _
    rw [map_after, hk]

/-- Relabeling what is settled is settling what is relabeled. -/
theorem map_settle (line : Nat) (r : Except (FaultOf φ) (ValueOf φ)) :
    (settle line r).map f (ValueOf.map f) = settle line (mapResult f r) := by
  cases r <;> rfl

variable {f}

/-- An evaluation that comes to a value with other code comes to a value. -/
theorem exists_of_map_eq_ended {x : Evaluation φ β} {printed : List (ValueOf ψ)} {b : β'}
    (h : x.map f g = .ended printed (.ok b)) :
    ∃ printed' b', x = .ended printed' (.ok b') ∧ g b' = b := by
  match x, h with
  | .ended printed' (.ok b'), h =>
    cases h
    exact ⟨printed', b', rfl, rfl⟩

end Evaluation

namespace Tree

variable {α β : Type} [Labelled α] [Labelled β]

/-- A construct without the children that it should have is evaluated like an operation. -/
theorem eval_otherwise {apply : Application α} {env : TreeEnv α} {a : α} {ts : List (Tree α)}
    (hlambda : (Labelled.toLabel a).kind = .lambda → ts.length ≠ 2)
    (hcond : (Labelled.toLabel a).kind = .conditional → ts.length ≠ 3)
    (hgamma : (Labelled.toLabel a).kind = .gamma → ts.length ≠ 2)
    (operand? : Option (TreeValue α)) :
    (node a ts).eval apply env operand? = (do
      let vs ← evalAll apply env ts
      let v ← .settle (Labelled.toLabel a).line ((Labelled.toLabel a).operate env vs)
      return (v, false)) := by
  rw [eval]
  · rintro x e hk rfl
    exact hlambda hk rfl
  · rintro p e₁ e₂ hk rfl
    exact hcond hk rfl
  · rintro e₁ e₂ hk rfl
    exact hgamma hk rfl

variable (f : α → β)

/-- The values with other labels in the code. -/
abbrev relabel : TreeValue α → TreeValue β :=
  ValueOf.map (Abstraction.map f)

/-- The result of a tree's evaluation with other labels in the code. -/
def relabelReturn (r : TreeValue α × Bool) : TreeValue β × Bool :=
  (relabel f r.1, r.2)

/-- Applications do not depend on labels. -/
def IgnoresLabels (apply : Application α) (apply' : Application β) : Prop :=
  ∀ line g v operand?, (apply line g v operand?).map (Abstraction.map f) (relabelReturn f) =
    apply' line (relabel f g) (relabel f v) (operand?.map (relabel f))

variable {f} {apply : Application α} {apply' : Application β}

mutual

/-- The value of a tree with other labels. -/
theorem eval_map (hf : ∀ a, Labelled.toLabel (f a) = Labelled.toLabel a)
    (happly : IgnoresLabels f apply apply') (env : TreeEnv α) (operand? : Option (TreeValue α)) :
    ∀ t : Tree α, (t.eval apply env operand?).map (Abstraction.map f) (relabelReturn f) =
      (t.map f).eval apply' (env.map (Abstraction.map f)) (operand?.map (relabel f))
  | node a ts => by
    -- these are the cases in which the evaluator does not evaluate all children first
    by_cases hlambda : (Labelled.toLabel a).kind = .lambda ∧ ts.length = 2
    · obtain ⟨ha, hlen⟩ := hlambda
      obtain ⟨x, e, rfl⟩ := List.length_eq_two.1 hlen
      have hnames := boundNames_map hf x
      rw [Tree.map, mapAll, mapAll, mapAll, eval_lambda ha, eval_lambda (by rw [hf, ha]), hnames]
      rfl
    by_cases hcond : (Labelled.toLabel a).kind = .conditional ∧ ts.length = 3
    · obtain ⟨ha, hlen⟩ := hcond
      obtain ⟨p, e₁, e₂, rfl⟩ := List.length_eq_three.1 hlen
      rw [Tree.map, mapAll, mapAll, mapAll, mapAll, eval_conditional ha,
        eval_conditional (by rw [hf, ha])]
      rw [Evaluation.map_bind, eval_map hf happly env none p]
      · rfl
      · rintro ⟨v, taken⟩
        -- a condition that is no truth value is an error at the same line
        match v with
        | .truth true => exact eval_map hf happly env operand? e₁
        | .truth false => exact eval_map hf happly env operand? e₂
        | .integer _ | .string _ | .dummy | .tuple _ | .closure _ _ | .eta _ _ | .ystar
        | .builtin _ =>
          rw [hf]
          rfl
    by_cases hgamma : (Labelled.toLabel a).kind = .gamma ∧ ts.length = 2
    · obtain ⟨ha, hlen⟩ := hgamma
      obtain ⟨e₁, e₂, rfl⟩ := List.length_eq_two.1 hlen
      rw [Tree.map, mapAll, mapAll, mapAll, eval_gamma ha, eval_gamma (by rw [hf, ha])]
      rw [Evaluation.map_bind, eval_map hf happly env none e₂]
      · rfl
      · rintro ⟨v, -⟩
        rw [Evaluation.map_bind, eval_map hf happly env (some v) e₁]
        · rfl
        · rintro ⟨g, taken⟩
          cases taken with
          | true => rfl
          | false =>
            rw [hf]
            exact happly _ g v operand?
    · rw [Tree.map, mapAll_eq_map,
        eval_otherwise (fun h h' => hlambda ⟨h, h'⟩) (fun h h' => hcond ⟨h, h'⟩)
          (fun h h' => hgamma ⟨h, h'⟩),
        eval_otherwise (by rw [hf, List.length_map]; exact fun h h' => hlambda ⟨h, h'⟩)
          (by rw [hf, List.length_map]; exact fun h h' => hcond ⟨h, h'⟩)
          (by rw [hf, List.length_map]; exact fun h h' => hgamma ⟨h, h'⟩)]
      rw [Evaluation.map_bind, evalAll_map hf happly env ts, mapAll_eq_map]
      intro vs
      rw [Evaluation.map_bind, Evaluation.map_settle, hf, Label.operate_map]
      exact fun v => rfl

/-- The values of several trees with other labels. -/
theorem evalAll_map (hf : ∀ a, Labelled.toLabel (f a) = Labelled.toLabel a)
    (happly : IgnoresLabels f apply apply') (env : TreeEnv α) :
    ∀ ts : List (Tree α), (evalAll apply env ts).map (Abstraction.map f) (List.map (relabel f)) =
      evalAll apply' (env.map (Abstraction.map f)) (mapAll f ts)
  | [] => rfl
  | t :: ts => by
    rw [mapAll, evalAll, evalAll]
    rw [Evaluation.map_bind, evalAll_map hf happly env ts]
    intro vs
    rw [Evaluation.map_bind, eval_map hf happly env none t]
    · rfl
    · exact fun r => rfl

end

/-- A function of which the labels are replaced does the same. -/
theorem call_map (hf : ∀ a, Labelled.toLabel (f a) = Labelled.toLabel a)
    (happly : IgnoresLabels f apply apply') (line : Nat) (code : Abstraction α) (env : TreeEnv α)
    (v : TreeValue α) :
    (Evaluation.call apply line code env v).map (Abstraction.map f) (relabel f) =
      Evaluation.call apply' line (code.map f) (env.map (Abstraction.map f)) (relabel f v) := by
  have henter := EnvOf.enter?_map (Abstraction.map f) env code.vars v
  simp only [Evaluation.call, Abstraction.map] at henter ⊢
  rw [henter]
  cases env.enter? code.vars v with
  | none => rfl
  | some inner =>
    simp only [Option.map_some]
    rw [Evaluation.map_bind, eval_map hf happly inner none code.body]
    · rfl
    · exact fun r => rfl

/-- Applications do not depend on labels, up to any limit. -/
theorem ignoresLabels_apply (hf : ∀ a, Labelled.toLabel (f a) = Labelled.toLabel a) (limit : Nat) :
    IgnoresLabels f (Evaluation.apply limit) (Evaluation.apply limit) := by
  induction limit with
  | zero => exact fun line g v operand? => rfl
  | succ limit ih =>
    intro line g v operand?
    -- what an operation leaves has the labels changed before or after it is returned
    have hreturn (r : Except (FaultOf (Abstraction α)) (TreeValue α)) (taken : Bool) :
        (do return (← Evaluation.settle line r, taken)).map (Abstraction.map f) (relabelReturn f) =
          (do return (← Evaluation.settle line (mapResult (Abstraction.map f) r), taken)) := by
      cases r <;> rfl
    cases g with
    | closure code env =>
      simp only [Evaluation.apply, ValueOf.map]
      rw [Evaluation.map_bind, call_map hf ih]
      exact fun r => rfl
    | eta code env =>
      simp only [Evaluation.apply, ValueOf.map]
      rw [Evaluation.map_bind, call_map hf ih]
      · rfl
      · exact fun g => ih line g v operand?
    | ystar => cases v <;> rfl
    | tuple elements =>
      simp only [Evaluation.apply, ValueOf.map, hreturn, ValueOf.mapAll_eq_map, ValueOf.element_map]
    | builtin b =>
      cases b with
      | conc =>
        cases operand? with
        | some w => simp only [Evaluation.apply, ValueOf.map, Option.map_some, hreturn, ValueOf.joined_map]
        | none => simp only [Evaluation.apply, ValueOf.map, Option.map_none, hreturn, Builtin.apply_map]
      | print => rfl
      | _ => simp only [Evaluation.apply, ValueOf.map, hreturn, Builtin.apply_map]
    | _ => rfl

/-- The value of a program with other labels. -/
theorem evaluate_map (hf : ∀ a, Labelled.toLabel (f a) = Labelled.toLabel a) (limit : Nat)
    (t : Tree α) : (t.evaluate limit).map (Abstraction.map f) (relabel f) =
      (t.map f).evaluate limit := by
  rw [evaluate, Evaluation.map_bind, eval_map hf (ignoresLabels_apply hf limit)]
  · rfl
  · exact fun r => rfl

end Tree

end Rpal
