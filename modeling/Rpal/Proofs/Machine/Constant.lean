import Rpal.Proofs.Control.Acceptance
import Rpal.Proofs.Evaluator.Follows

/-!
# Constant expressions

Literals, and operators over them, have the same value in every environment. The machine computes it
without calling a function, and so without printing anything.

## Key results

- `Tree.AreConstant.reaches`: the machine leaves the values of constant expressions on its stack
- `Program.exists_of_isConstant`: a program that is a constant expression halts with its value
-/

namespace Rpal

namespace Tree

mutual

/-- The expression has the value in every environment, and nothing is applied or chosen in it. -/
inductive IsConstant : Tree Label → Value → Prop where
  | node {l ts vs v} : l.kind.takes ts.length = true → l.kind ≠ .conditional → l.kind ≠ .gamma →
      AreConstant ts vs → (∀ env : Env, l.operate env vs = .ok v) → IsConstant (.node l ts) v

/-- The expressions have these values. -/
inductive AreConstant : List (Tree Label) → List Value → Prop where
  | nil : AreConstant [] []
  | cons {t ts v vs} : IsConstant t v → AreConstant ts vs → AreConstant (t :: ts) (v :: vs)

end

/-- There is one value for each tree of a constant tuple. -/
theorem AreConstant.length_eq {ts : List (Tree Label)} {vs : List Value} (h : AreConstant ts vs) :
    ts.length = vs.length := by
  induction ts generalizing vs with
  | nil => cases h; rfl
  | cons t ts ih =>
    cases h with
    | cons _ h => rw [List.length_cons, List.length_cons, ih h]

/-- The trees of a constant tuple are constant themselves. -/
theorem AreConstant.exists_isConstant {ts : List (Tree Label)} {vs : List Value}
    (h : AreConstant ts vs) : ∀ t ∈ ts, ∃ v, IsConstant t v := by
  induction ts generalizing vs with
  | nil => exact nofun
  | cons t ts ih =>
    cases h with
    | cons ht h => exact List.forall_mem_cons.2 ⟨⟨_, ht⟩, ih h⟩

/-- A literal is constant. -/
theorem isConstant_leaf {l : Label} {v : Value} (hl : l.kind.takes 0 = true)
    (hv : ∀ env : Env, l.operate env [] = .ok v) : IsConstant (leaf l) v := by
  refine .node hl (fun h => ?_) (fun h => ?_) .nil hv
  all_goals
    rw [h] at hl
    cases hl

/-- A constant expression is an expression. -/
theorem IsConstant.isSource {t : Tree Label} : ∀ {v : Value}, IsConstant t v →
    IsSource .expression t := by
  induction t using Tree.induct with
  | node l ts ih =>
    intro v h
    cases h with
    | node htakes _ _ hts _ =>
      refine .plain htakes fun t ht => ?_
      obtain ⟨w, hw⟩ := hts.exists_isConstant t ht
      exact ih t ht hw

/-- A constant expression is in canonical form. -/
theorem IsConstant.standard_eq {t : Tree Label} : ∀ {v : Value}, IsConstant t v →
    t.standard = t := by
  induction t using Tree.induct with
  | node l ts ih =>
    intro v h
    cases h with
    | node htakes _ _ hts _ =>
      have hall : ∀ t ∈ ts, t.standard = t := fun t ht =>
        (hts.exists_isConstant t ht).elim fun _ => ih t ht
      rw [standard_of_hasRule_eq_false (hasRule_of_takes htakes), List.map_congr_left hall,
        List.map_id']

/-- There is no lambda in a constant expression. -/
theorem IsConstant.bindsParameters {t : Tree Label} : ∀ {v : Value}, IsConstant t v →
    t.BindsParameters := by
  induction t using Tree.induct with
  | node l ts ih =>
    intro v h
    cases h with
    | node htakes _ _ hts _ =>
      have hl : l.kind ≠ .lambda := by
        intro hl
        rw [hl] at htakes
        cases htakes
      refine (bindsParameters_node hl).2 fun t ht => ?_
      obtain ⟨w, hw⟩ := hts.exists_isConstant t ht
      exact ih t ht hw

end Tree

/-! ### The machine -/

namespace Machine

/-- The machine comes to have these frames and values, and nothing is printed. -/
def Reaches (m : Machine) (frames : List Frame) (values : List Value) : Prop :=
  ∃ n m', m.runFor n = .running m' ∧ m'.program = m.program ∧ m'.sink = m.sink ∧
    m'.frames = frames ∧ m'.values = values

variable {m : Machine} {frames frames' : List Frame} {values values' : List Value}

/-- A machine reaches the frames and values it has. -/
theorem Reaches.refl (hframes : m.frames = frames) (hvalues : m.values = values) :
    m.Reaches frames values :=
  ⟨0, m, rfl, rfl, rfl, hframes, hvalues⟩

/-- What is reached from where the machine comes to is reached. -/
theorem Reaches.trans (h : m.Reaches frames values)
    (h' : ∀ m' : Machine, m'.program = m.program → m'.frames = frames → m'.values = values →
      m'.Reaches frames' values') : m.Reaches frames' values' := by
  obtain ⟨n, m₁, hrun, hprogram, hsink, hframes, hvalues⟩ := h
  obtain ⟨k, m₂, hrun', hprogram', hsink', h₂⟩ := h' m₁ hprogram hframes hvalues
  exact ⟨n + k, m₂, (runFor_add k hrun).trans hrun', hprogram'.trans hprogram, hsink'.trans hsink, h₂⟩

/-- The machine halts with the value that is left when there is nothing more to do. -/
theorem Reaches.halts {env : Env} {v : Value} (h : m.Reaches [{ control := [], env }] [v]) :
    ∃ n m', m.runFor n = .halted (.ok (some v)) m' ∧ m'.sink = m.sink := by
  obtain ⟨n, m₁, hrun, -, hsink, hframes, hvalues⟩ := h
  -- the frame goes first, and then the value is what is left
  have hdrop : m₁.step = .running { m₁ with frames := [] } := by
    rw [step.eq_def, hframes]
  have hfinish : Machine.step { m₁ with frames := [] } =
      .halted (.ok (some v)) { m₁ with frames := [], values := [] } := by
    simp only [step, finish, hvalues]
  have hrest := (runFor_add 1 ((m₁.runFor_one).trans hdrop)).trans ((runFor_one _).trans hfinish)
  exact ⟨n + (1 + 1), _, (runFor_add _ hrun).trans hrest, hsink⟩

end Machine

open Rpal.Tree

variable {p : Program} {env : Env} {fs : List Frame}

mutual

/-- The machine leaves the value of a constant expression. -/
theorem Tree.IsConstant.reaches {u : Tree Numbered} {v : Value} {code rest : List ControlItem}
    {values : List Value} {m : Machine} (hcode : p.control.Codes p.arena u code)
    (h : IsConstant (u.map Numbered.label) v) (hprogram : m.program = p)
    (hframes : m.frames = { control := code ++ rest, env } :: fs) (hvalues : m.values = values) :
    m.Reaches ({ control := rest, env } :: fs) (v :: values) := by
  cases hcode with
  | lambda hl =>
    rw [Tree.map] at h
    cases h with
    | node htakes =>
      rw [hl] at htakes
      cases htakes
  | conditional hl =>
    rw [Tree.map] at h
    cases h with
    | node _ hcond => exact absurd hl hcond
  | @plain l n us id codes _ _ hid hlen hcodes =>
    rw [Tree.map, mapAll_eq_map] at h
    cases h with
    | @node _ _ vs _ htakes hcond hgamma hus hv =>
      rw [List.append_assoc] at hframes
      have hcount := hus.length_eq
      rw [List.length_map] at htakes hcount
      refine (hus.reaches hcodes hprogram hframes hvalues).trans fun m' hprogram' hframes' hvalues' => ?_
      -- all operands are on the stack, and the operation takes them
      have hid' : m'.program.arena.label id = l := by rw [hprogram', hprogram, hid]
      have hchildren : (m'.program.arena.children id).length = vs.length := by
        rw [hprogram', hprogram, hlen, hcount]
      have hreduce := Machine.reduceNode_eq_settle
        (m := { m' with frames := { control := rest, env } :: fs }) hid' hchildren
        (Kind.admits_of_takes (hcount ▸ htakes)) hcond hgamma hvalues'
      have hstep := (Machine.step_cons hframes').trans hreduce
      rw [hv, Machine.settle, Machine.push] at hstep
      exact ⟨1, _, (m'.runFor_one).trans hstep, rfl, rfl, rfl, rfl⟩

/-- The machine leaves the values of constant expressions, the first on top. -/
theorem Tree.AreConstant.reaches {us : List (Tree Numbered)} {vs : List Value}
    {codes rest : List ControlItem} {values : List Value} {m : Machine}
    (hcodes : p.control.CodesAll p.arena us codes)
    (h : AreConstant (us.map (Tree.map Numbered.label)) vs) (hprogram : m.program = p)
    (hframes : m.frames = { control := codes ++ rest, env } :: fs) (hvalues : m.values = values) :
    m.Reaches ({ control := rest, env } :: fs) (vs ++ values) := by
  cases hcodes with
  | nil =>
    cases h
    exact .refl hframes hvalues
  | cons hcode hcodes =>
    cases h with
    | cons hu hus =>
      rw [List.append_assoc] at hframes
      refine (hus.reaches hcodes hprogram hframes hvalues).trans fun m' hprogram' hframes' hvalues' => ?_
      exact hu.reaches hcode (hprogram'.trans hprogram) hframes' hvalues'

end

/-- A program that is a constant expression is accepted, and the machine halts with its value, without
    having printed anything. -/
theorem Program.exists_of_isConstant {t : Tree Label} {v : Value} (h : t.IsConstant v)
    (sink : Sink) : ∃ p, (Arena.ofTree t).program = .ok p ∧
      ∃ n m, (Machine.start p sink).runFor n = .halted (.ok (some v)) m ∧ m.sink = sink := by
  have hsource : IsSource .expression t := h.isSource
  obtain ⟨p, hp⟩ := (exists_iff_bindsParameters hsource.isExpression).2
    (h.standard_eq.symm ▸ h.bindsParameters)
  have hcode := (codes_of_ofTree (.inl ⟨_, hsource⟩) hsource.standard hp).2
  rw [h.standard_eq] at hcode
  have hreaches : (Machine.start p sink).Reaches [{ control := [], env := .outermost }] [v] :=
    (map_label_numbered t ▸ h).reaches hcode rfl (by rw [List.append_nil]; rfl) rfl
  exact ⟨p, hp, hreaches.halts⟩

end Rpal
