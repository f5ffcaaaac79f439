import Rpal.Proofs.Arena.Failure
import Rpal.Proofs.Control.Acceptance
import Rpal.Proofs.Evaluator.SameValue
import Rpal.Proofs.Machine.Constant

/-!
# Definitions that hold at the same time

An expression `let (and (X₁ = E₁) … (Xₙ = Eₙ)) B` becomes the application of a function of `n` names
to the tuple of `n` values. When the function is put to work, several names take the elements of
the tuple. One name takes the argument as it is, and this is a tuple even if it has one element.

## Key results

- `EnvOf.enter?_tuple`: what the names stand for when a function is applied to a tuple
- `Program.reaches_of_application`: a program that applies a function comes to the function's body
- `Program.simultaneous_binds`: the names of definitions that hold at the same time
-/

namespace Rpal

open Rpal.Tree

/-! ### Environments -/

namespace EnvOf

variable {φ : Type} {name : String} {names : List String} {env : EnvOf φ} {vs : List (ValueOf φ)}

/-- Other names stand for what they stood for before. -/
theorem lookup?_bindAll_of_notMem (h : name ∉ names) (env : EnvOf φ) (vs : List (ValueOf φ)) :
    (env.bindAll names vs).lookup? name = env.lookup? name := by
  induction names generalizing env vs with
  | nil => cases vs <;> rfl
  | cons other names ih =>
    obtain ⟨hother, hnames⟩ := List.ne_and_not_mem_of_not_mem_cons h
    cases vs with
    | nil => rfl
    | cons v vs => rw [bindAll, ih hnames, lookup?, if_neg hother]

/-- Names that are distinct stand for the values at their places. -/
theorem lookup?_bindAll (hnodup : names.Nodup) (hlen : vs.length = names.length) (env : EnvOf φ) :
    List.Forall₂ (fun name v => (env.bindAll names vs).lookup? name = some v) names vs := by
  induction names generalizing env vs with
  | nil =>
    obtain rfl := List.eq_nil_of_length_eq_zero hlen
    exact .nil
  | cons name names ih =>
    obtain ⟨v, vs, rfl⟩ := List.exists_cons_of_length_eq_add_one hlen
    obtain ⟨hname, hnodup⟩ := List.nodup_cons.1 hnodup
    refine .cons ?_ (ih hnodup (Nat.succ.inj hlen) _)
    rw [bindAll, lookup?_bindAll_of_notMem hname, lookup?, if_pos rfl]

/-- A function is applied to a tuple. Each of several names takes its element; one name takes the
    tuple. -/
theorem enter?_tuple (hne : names ≠ []) (hnodup : names.Nodup) (hlen : vs.length = names.length)
    (env : EnvOf φ) : ∃ inner, env.enter? names (.tuple vs) = some inner ∧
      List.Forall₂ (fun name v =>
        inner.lookup? name = some (if names.length = 1 then .tuple [v] else v)) names vs ∧
      ∀ name ∉ names, inner.lookup? name = env.lookup? name := by
  match names, vs, hlen with
  | [name], [v], _ =>
    refine ⟨.bind name (.tuple [v]) (.scope env), rfl, .cons ?_ .nil, fun other hother => ?_⟩
    · rw [lookup?, if_pos rfl]
      rfl
    · rw [lookup?, if_neg (List.ne_of_not_mem_cons hother), lookup?]
  | name :: name' :: names, v :: v' :: vs, hlen =>
    refine ⟨(EnvOf.scope env).bindAll (name :: name' :: names) (v :: v' :: vs), ?_, ?_,
      fun other hother => ?_⟩
    · simp only [enter?, hlen, if_true]
    · have hcount : (name :: name' :: names).length ≠ 1 := by simp
      simp only [if_neg hcount]
      exact lookup?_bindAll hnodup hlen _
    · rw [lookup?_bindAll_of_notMem hother, lookup?]

end EnvOf

/-! ### The trees of definitions -/

/-- The definition of a name. -/
structure NameDefinition where
  equation : Label
  name : Label
  value : Tree Label
  isEquation : equation.kind = .equation
  isName : name.kind = .identifier

namespace NameDefinition

variable {d : NameDefinition}

/-- The text of the name. -/
def var (d : NameDefinition) : String :=
  d.name.content

/-- The equation of the name and the value. -/
def tree (d : NameDefinition) : Tree Label :=
  .node d.equation [.leaf d.name, d.value]

/-- The name of a definition is a name. -/
theorem isName_name (d : NameDefinition) : IsName (.leaf d.name) :=
  ⟨d.name, d.isName, rfl⟩

/-- Only the value of a definition is rewritten. -/
theorem standard_tree (d : NameDefinition) :
    d.tree.standard = .node d.equation [.leaf d.name, d.value.standard] := by
  rw [tree, standard_of_hasRule_eq_false (by rw [d.isEquation]; rfl), List.map_cons,
    d.isName_name.standard, List.map_singleton]

/-- A definition has the shape that the rules ask for, if its value does. -/
theorem isWellFormed_tree (h : d.value.IsWellFormed) : d.tree.IsWellFormed := by
  refine .node (by rw [d.isEquation]; decide) ?_ (.noRule (by rw [d.isEquation]; rfl))
  exact List.forall_mem_cons.2 ⟨d.isName_name.isWellFormed, List.forall_mem_singleton.2 h⟩

/-- A definition is an equation after standardization. -/
theorem isEquated_tree (d : NameDefinition) : IsEquated d.tree.standard :=
  d.standard_tree ▸ .mk d.isEquation

/-- The sides of definitions are all there. -/
theorem filterMap_sides? (ds : List NameDefinition) :
    ((ds.map tree).map standard).filterMap sides? =
      ds.map fun d => (.leaf d.name, d.value.standard) := by
  induction ds with
  | nil => rfl
  | cons d ds ih =>
    have hsides : sides? d.tree.standard = some (.leaf d.name, d.value.standard) := by
      rw [standard_tree]
      exact if_pos d.isEquation
    rw [List.map_cons, List.map_cons, List.filterMap_cons_some hsides, ih, List.map_cons]

end NameDefinition

namespace Tree

variable {l s : Label} {ds : List NameDefinition} {body : Tree Label}

/-- The expression `let (and (X₁ = E₁) … (Xₙ = Eₙ)) B`. -/
def letAll (l s : Label) (ds : List NameDefinition) (body : Tree Label) : Tree Label :=
  .node l [.node s (ds.map NameDefinition.tree), body]

/-- The canonical form applies a function of all names to the tuple of all values. -/
theorem standard_letAll (hl : l.kind = .letIn) (hs : s.kind = .simultaneous) :
    (letAll l s ds body).standard = .node (l.turned .gamma)
      [.node ((s.turned .equation).turned .lambda)
        [.node (s.beside .names) (ds.map fun d => .leaf d.name), body.standard],
      .node (s.beside .tau) (ds.map fun d => d.value.standard)] := by
  rw [letAll, standard_letIn hl (standard_simultaneous hs (NameDefinition.filterMap_sides? ds)),
    List.map_map, List.map_map]
  rfl

/-- The names of the definitions can be bound. -/
theorem isNaming_names (s : Label) (ds : List NameDefinition) :
    IsNaming (.node (s.beside .names) (ds.map fun d => .leaf d.name)) :=
  .names rfl (List.forall_mem_map.2 fun d _ => .name d.isName_name)

/-- The list of names of definitions can be bound. -/
theorem isBindable_names (s : Label) (ds : List NameDefinition) :
    IsBindable (.node (s.beside .names) (ds.map fun d => .leaf d.name)) :=
  .names rfl (List.forall_mem_map.2 fun d _ => d.isName_name)

/-- The list of names binds the names of the definitions, in their order. -/
theorem boundNames_names (s : Label) (ds : List NameDefinition) :
    (node (s.beside .names) (ds.map fun d => leaf d.name)).boundNames =
      ds.map NameDefinition.var := by
  simp only [boundNames, Labelled.toLabel, id_eq, Label.kind_beside, List.map_map]
  rfl

/-- The tuple of the values is an expression of the core language, however many there are. -/
theorem isCore_values (s : Label) (hds : ∀ d ∈ ds, d.value.IsExpression) :
    IsCore (.node (s.beside .tau) (ds.map fun d => d.value.standard)) :=
  .plain rfl (List.forall_mem_map.2 fun d hd => (hds d hd).core)

/-- One definition is enough. -/
theorem isExpression_letAll (hl : l.kind = .letIn) (hs : s.kind = .simultaneous) (hne : ds ≠ [])
    (hds : ∀ d ∈ ds, d.value.IsExpression) (hbody : body.IsExpression) :
    (letAll l s ds body).IsExpression where
  wellFormed := by
    have hand : IsWellFormed (.node s (ds.map NameDefinition.tree)) := by
      refine .node (by rw [hs]; decide) ?_ (.simultaneous hs ?_ ?_)
      · exact List.forall_mem_map.2 fun d hd => d.isWellFormed_tree (hds d hd).wellFormed
      · rwa [ne_eq, List.map_eq_nil_iff, List.map_eq_nil_iff]
      · exact List.forall_mem_map.2 (List.forall_mem_map.2 fun d _ => d.isEquated_tree)
    refine .node (by rw [hl]; decide) ?_ (.letIn hl ?_)
    · exact List.forall_mem_cons.2 ⟨hand, List.forall_mem_singleton.2 hbody.wellFormed⟩
    · rw [standard_simultaneous hs rfl]
      exact .mk rfl
  core := by
    rw [standard_letAll hl hs]
    refine .plain rfl (List.forall_mem_cons.2 ⟨?_, List.forall_mem_singleton.2 ?_⟩)
    · exact .lambda rfl (.naming (isNaming_names s ds)) hbody.core
    · exact isCore_values s hds

/-- The lambdas of the canonical form bind parameters if those of the parts do. -/
theorem bindsParameters_letAll_iff (hl : l.kind = .letIn) (hs : s.kind = .simultaneous) :
    (letAll l s ds body).standard.BindsParameters ↔
      (∀ d ∈ ds, d.value.standard.BindsParameters) ∧ body.standard.BindsParameters := by
  rw [standard_letAll hl hs, bindsParameters_gamma rfl,
    bindsParameters_lambda rfl (.naming (isNaming_names s ds)), bindsParameters_node (by simp),
    List.forall_mem_map, and_iff_right (isBindable_names s ds), and_comm]

/-- Without a definition there is no canonical form. -/
theorem standardForm_letAll_nil (l : Label) (hs : s.kind = .simultaneous) (body : Tree Label) :
    (Arena.ofTree (letAll l s [] body)).standardForm =
      .error (.malformed .simultaneous s.line .noDefinitions) := by
  have hfault : (letAll l s [] body).fault? = some (.node s [], .noDefinitions) := by
    have hdefect : (Tree.node s []).defect? = some .noDefinitions := by
      rw [defect?, hs]
      rfl
    simp [letAll, fault?, postorder, postorderAll, firstFault?, hdefect]
  obtain ⟨root, places, hroot, hspans, hnodup⟩ := Arena.isTree_ofTree (letAll l s [] body)
  have hmark : (Arena.ofTree (letAll l s [] body)).standardized = false :=
    Arena.standardized_graft _ _
  have hfares := Reshape.standardize_fares hmark hroot hspans hnodup
  rw [hfault] at hfares
  obtain ⟨a', -, -, hrun, -⟩ := hfares
  rw [Arena.standardForm, hrun]
  simp only [Label.malformed, Tree.label, hs, Kind.reported]
  rfl

end Tree

/-! ### Evaluation -/

namespace Tree

variable {t : Tree Numbered} {limit : Nat} {printed : List (TreeValue Numbered)}
  {w : TreeValue Numbered}

/-- The value of a program is that of its tree. -/
theorem exists_eval_of_evaluate (h : t.evaluate limit = .ended printed (.ok w)) : ∃ taken,
    t.eval (Evaluation.apply limit) .outermost none = .ended printed (.ok (w, taken)) := by
  rw [evaluate] at h
  cases heval : t.eval (Evaluation.apply limit) .outermost none with
  | unfinished =>
    rw [heval] at h
    cases h
  | ended more result =>
    rw [heval] at h
    cases result with
    | error e => cases h
    | ok value =>
      obtain ⟨hprinted, hvalue⟩ := Evaluation.ended.inj h
      rw [List.append_nil] at hprinted
      obtain rfl : value.1 = w := Except.ok.inj hvalue
      exact ⟨value.2, by rw [hprinted]⟩

/-- Trees that all have values have them together. -/
theorem exists_evalAll {ρ : Type} {P : ρ → TreeValue Numbered → Prop} {us : List (Tree Numbered)}
    {rs : List ρ} (h : List.Forall₂ (fun u r =>
      ∃ printed w, u.evaluate limit = .ended printed (.ok w) ∧ P r w) us rs) :
    ∃ printed ws, evalAll (Evaluation.apply limit) .outermost us = .ended printed (.ok ws) ∧
      List.Forall₂ P rs ws := by
  induction h with
  | nil => exact ⟨[], [], rfl, .nil⟩
  | cons hu _ ih =>
    obtain ⟨printed, w, hu, hw⟩ := hu
    obtain ⟨more, ws, hus, hws⟩ := ih
    obtain ⟨taken, hu⟩ := exists_eval_of_evaluate hu
    refine ⟨more ++ (printed ++ []), w :: ws, ?_, .cons hw hws⟩
    rw [evalAll, hus, hu]
    rfl

/-- The value of a tuple of expressions. -/
theorem exists_evaluate_tau {ρ : Type} {P : ρ → TreeValue Numbered → Prop} {a : Numbered}
    (ha : a.label.kind = .tau) {us : List (Tree Numbered)} {rs : List ρ}
    (h : List.Forall₂ (fun u r =>
      ∃ printed w, u.evaluate limit = .ended printed (.ok w) ∧ P r w) us rs) :
    ∃ printed ws, (node a us).evaluate limit = .ended printed (.ok (.tuple ws)) ∧
      List.Forall₂ P rs ws := by
  obtain ⟨printed, ws, hus, hws⟩ := exists_evalAll h
  have hkind : (Labelled.toLabel a).kind = .tau := ha
  have hoperate : (Labelled.toLabel a).operate .outermost ws = .ok (.tuple ws) := by
    rw [Label.operate.eq_def, hkind]
  refine ⟨printed, ws, ?_, hws⟩
  rw [evaluate, eval_plain (by rw [hkind]; decide) (by rw [hkind]; decide) (by rw [hkind]; decide),
    hus]
  simp only [bind, Evaluation.andThen, Evaluation.after, hoperate, Evaluation.settle, pure,
    List.append_nil]

end Tree

/-! ### The machine -/

/-- The machine has nothing to do but to evaluate the tree in the environment. -/
def Machine.Faces (p : Program) (t : Tree Label) (env : Env) (m : Machine) : Prop :=
  ∃ u code, u.map Numbered.label = t ∧ p.control.Codes p.arena u code ∧
    m.Has p [{ control := code, env }] []

variable {p : Program} {sink : Sink}

/-- A program that applies a function to an expression evaluates the expression, and then the body of
    the function in an environment for the value. -/
theorem Program.reaches_of_application {a b : Numbered} {x e body : Tree Numbered}
    (ha : a.label.kind = .gamma) (hb : b.label.kind = .lambda)
    (hcode : p.control.Codes p.arena (node a [node b [x, body], e]) p.control.root.body.reverse)
    (he : e.IsShaped) (hroom : sink.room = none) {limit : Nat} {printed : List (TreeValue Numbered)}
    {w : TreeValue Numbered} (heval : e.evaluate limit = .ended printed (.ok w)) {inner : Env}
    (hinner : EnvOf.enter? .outermost x.boundNames (w.map p.deltaOf) = some inner) :
    w.MadeOf p.codes ∧ ∃ n m, (Machine.start p sink).runFor n = .running m ∧
      m.Faces p (body.map Numbered.label) inner := by
  generalize hroot : p.control.root.body.reverse = code at hcode
  cases hcode with
  | lambda hl => cases ha.symm.trans hl
  | @plain l n ts id codes _ _ hid _ hcodes =>
    obtain - | ⟨hfun, - | ⟨harg, - | -⟩⟩ := hcodes
    rw [List.nil_append] at hroot
    cases hfun with
    | plain hlambda => exact absurd hb hlambda
    | @lambda l' k x e _ _ hvars _ hbody =>
      let env : TreeEnv Numbered := .outermost
      have henv : env.MadeOf p.codes := trivial
      have hnext : p.arena.NoApplication [.delta k, .node id] := trivial
      have hm : (Machine.start p sink).Has p
          [{ control := _ ++ [.delta k, .node id], env := env.map p.deltaOf }] [] :=
        ⟨rfl, hroom, by rw [Machine.start, hroot, List.append_assoc]; rfl, rfl⟩
      -- the argument comes first
      obtain ⟨taken, heval⟩ := exists_eval_of_evaluate heval
      have hfollows := follows_eval (applies_apply limit) henv harg he (.none hnext) hm
      rw [heval] at hfollows
      cases hfollows with
      | @returns _ _ n₁ m₁ hrun _ hreturns =>
        obtain ⟨hw, hm₁⟩ := hreturns.leaves (List.cons_ne_nil _ _)
        -- then the function, and last the application
        obtain ⟨m₂, hlambda, -, hm₂⟩ := hm₁.step_delta
        obtain ⟨m₃, hgamma, -, -, hm₃⟩ := hm₂.step_gamma hid ha
        rw [Machine.apply, hvars, show env.map p.deltaOf = .outermost from rfl, hinner] at hgamma
        have hcallers : m₃.callers = [] := by
          rw [Machine.callers, hm₃.frames_eq]
          rfl
        have hsteps := (Machine.runFor_add 1 ((m₁.runFor_one).trans hlambda)).trans
          ((m₂.runFor_one).trans hgamma)
        refine ⟨hw, n₁ + (1 + 1), _, (Machine.runFor_add _ hrun).trans hsteps, body, _, rfl, hbody,
          hm₃.program_eq, hm₃.room_eq, ?_, hm₃.values_eq⟩
        rw [hcallers]

/-! ### The names of definitions -/

/-- What the values of definitions come to as programs of their own. -/
abbrev YieldAll (ds : List NameDefinition) (runs : List (Program × Value)) : Prop :=
  List.Forall₂ (fun d r => d.value.Yields r.1 r.2) ds runs

/-- Every value of definitions that yield is flattened to a program. -/
theorem YieldAll.exists_program {ds : List NameDefinition} {runs : List (Program × Value)}
    (h : YieldAll ds runs) : ∀ d ∈ ds, ∃ q, (Arena.ofTree d.value).program = .ok q := by
  induction h with
  | nil => exact List.forall_mem_nil _
  | cons hd _ ih => exact List.forall_mem_cons.2 ⟨⟨_, hd.1⟩, ih⟩

/-- One limit is high enough for all values. -/
theorem YieldAll.exists_evaluate {ds : List NameDefinition} {runs : List (Program × Value)}
    (h : YieldAll ds runs) (hds : ∀ d ∈ ds, d.value.IsExpression) : ∃ n, ∀ limit, n ≤ limit →
      List.Forall₂ (fun d r => ∃ printed w,
        d.value.standard.numbered.evaluate limit = .ended printed (.ok w) ∧
          w.MadeOf r.1.codes ∧ w.map r.1.deltaOf = r.2) ds runs := by
  induction h with
  | nil => exact ⟨0, fun _ _ => .nil⟩
  | cons hd _ ih =>
    obtain ⟨hvalue, hds⟩ := List.forall_mem_cons.1 hds
    obtain ⟨n, hn⟩ := hd.exists_evaluate hvalue
    obtain ⟨k, hk⟩ := ih hds
    refine ⟨max n k, fun limit hlimit => ?_⟩
    exact .cons (hn limit (le_of_max_le_left hlimit)) (hk limit (le_of_max_le_right hlimit))

/-- The value is that of the program, apart from the numbers of functions. -/
def IsValueOf (r : Program × Value) (w' : TreeValue Numbered) : Prop :=
  ∃ w : TreeValue Numbered, w.MadeOf r.1.codes ∧ w.map r.1.deltaOf = r.2 ∧
    relabel Numbered.label w = relabel Numbered.label w'

/-- The values of definitions are the same with other numbers. -/
theorem exists_evaluate_of_map_label_eq_map {limit : Nat} {ds : List NameDefinition}
    {runs : List (Program × Value)} {us : List (Tree Numbered)}
    (h : List.Forall₂ (fun d r => ∃ printed w,
      d.value.standard.numbered.evaluate limit = .ended printed (.ok w) ∧
        w.MadeOf r.1.codes ∧ w.map r.1.deltaOf = r.2) ds runs)
    (hus : us.map (Tree.map Numbered.label) = ds.map fun d => d.value.standard) :
    List.Forall₂ (fun u r => ∃ printed w, u.evaluate limit = .ended printed (.ok w) ∧
      IsValueOf r w) us runs := by
  induction h generalizing us with
  | nil =>
    obtain rfl := List.map_eq_nil_iff.1 hus
    exact .nil
  | cons hd _ ih =>
    obtain ⟨u, us, rfl, hu, hus⟩ := List.map_eq_cons_iff.1 hus
    obtain ⟨printed, w, heval, hmade, hw⟩ := hd
    obtain ⟨printed', w', heval', hsame⟩ :=
      exists_evaluate_of_map_label_eq (hu.trans (map_label_numbered _).symm) heval
    exact .cons ⟨printed', w', heval', w, hmade, hw, hsame⟩ (ih hus)

/-- What the names stand for, once the values of the definitions are known. -/
theorem forall₂_lookup? {p : Program} {count : Nat} {env : Env} {ds : List NameDefinition}
    {runs : List (Program × Value)} {ws : List (TreeValue Numbered)}
    (hruns : List.Forall₂ IsValueOf runs ws) (hws : ∀ w ∈ ws, w.MadeOf p.codes)
    (h : List.Forall₂ (fun name v =>
      env.lookup? name = some (if count = 1 then .tuple [v] else v))
      (ds.map NameDefinition.var) (ws.map (ValueOf.map p.deltaOf))) :
    List.Forall₂ (fun d r => ∃ v, r.1.SameValue p r.2 v ∧
      env.lookup? d.var = some (if count = 1 then .tuple [v] else v)) ds runs := by
  rw [List.forall₂_map_left_iff, List.forall₂_map_right_iff] at h
  induction h generalizing runs with
  | nil =>
    cases hruns
    exact .nil
  | cons hd _ ih =>
    cases hruns with
    | cons hr hruns =>
      obtain ⟨hmade', hws⟩ := List.forall_mem_cons.1 hws
      obtain ⟨w, hmade, hw, hsame⟩ := hr
      exact .cons ⟨_, ⟨w, _, hmade, hmade', hw, rfl, hsame⟩, hd⟩ (ih hruns hws)

/-- Definitions of names that hold at the same time, in front of a body. If there is none, the tree is
    malformed. Otherwise it has a canonical form, and is accepted as a program if the body is. The
    program comes to the body in an environment in which each of several names stands for the value
    of its definition. A single name stands for the tuple of its value. -/
theorem Program.simultaneous_binds {l s : Label} {ds : List NameDefinition} {body : Tree Label}
    {runs : List (Program × Value)} (hl : l.kind = .letIn) (hs : s.kind = .simultaneous)
    (hnodup : (ds.map NameDefinition.var).Nodup) (hds : ∀ d ∈ ds, d.value.IsExpression)
    (hruns : YieldAll ds runs) (hbody : body.IsExpression) :
    (ds = [] → (Arena.ofTree (letAll l s ds body)).standardForm =
      .error (.malformed .simultaneous s.line .noDefinitions)) ∧
    (ds ≠ [] → (∃ a, (Arena.ofTree (letAll l s ds body)).standardForm = .ok a) ∧
      ((∃ p, (Arena.ofTree (letAll l s ds body)).program = .ok p) ↔
        ∃ q, (Arena.ofTree body).program = .ok q) ∧
      ∀ p, (Arena.ofTree (letAll l s ds body)).program = .ok p → ∀ sink : Sink, sink.room = none →
        ∃ n m env, (Machine.start p sink).runFor n = .running m ∧ m.Faces p body.standard env ∧
          List.Forall₂ (fun d r => ∃ v, r.1.SameValue p r.2 v ∧
            env.lookup? d.var = some (if ds.length = 1 then .tuple [v] else v)) ds runs ∧
          ∀ name ∉ ds.map NameDefinition.var, env.lookup? name = none) := by
  refine ⟨?_, fun hne => ?_⟩
  · rintro rfl
    exact standardForm_letAll_nil l hs body
  have hexpression := isExpression_letAll hl hs hne hds hbody
  refine ⟨?_, ?_, fun p hp sink hroom => ?_⟩
  · obtain ⟨a, root, F, hform, -⟩ :=
      Arena.unfolds_standardForm_of_isWellFormed hexpression.wellFormed
    exact ⟨a, hform⟩
  · rw [exists_iff_bindsParameters hexpression, exists_iff_bindsParameters hbody,
      bindsParameters_letAll_iff hl hs, and_iff_right]
    intro d hd
    exact (exists_iff_bindsParameters (hds d hd)).1 (hruns.exists_program d hd)
  -- the canonical form with numbers, an application of a function to a tuple
  have hcode := codes_of_isExpression hexpression hp
  have hlabel := map_label_numbered (letAll l s ds body).standard
  generalize (letAll l s ds body).standard.numbered = u at hlabel hcode
  rw [standard_letAll hl hs] at hlabel
  obtain ⟨i, f, e, rfl, hf, he⟩ := exists_of_map_eq_two hlabel
  obtain ⟨j, x, b, rfl, hx, hb⟩ := exists_of_map_eq_two hf
  have hshaped : e.IsShaped := IsCore.isShaped (he ▸ isCore_values s hds)
  obtain ⟨k, us, rfl, hus⟩ := exists_of_map_eq_node he
  -- the tuple has the values of the definitions
  obtain ⟨limit, hlimit⟩ := hruns.exists_evaluate hds
  have hvalues := exists_evaluate_of_map_label_eq_map (hlimit limit (Nat.le_refl _)) hus
  obtain ⟨printed, ws, heval, hws⟩ :=
    exists_evaluate_tau (a := ⟨s.beside .tau, k⟩) rfl hvalues
  -- the names take them
  have hnames : x.boundNames = ds.map NameDefinition.var := by
    rw [← boundNames_map (f := Numbered.label) (fun _ => rfl) x, hx, boundNames_names]
  have hlength : (ws.map (ValueOf.map p.deltaOf)).length = (ds.map NameDefinition.var).length := by
    rw [List.length_map, List.length_map, ← hws.length_eq, hruns.length_eq]
  obtain ⟨inner, hinner, hlookup, hothers⟩ :=
    EnvOf.enter?_tuple (by simpa using hne) hnodup hlength .outermost
  have henter : EnvOf.enter? .outermost x.boundNames ((ValueOf.tuple ws).map p.deltaOf) =
      some inner := by
    rw [hnames, ValueOf.map, ValueOf.mapAll_eq_map, hinner]
  obtain ⟨hmade, n, m, hrun, hfaces⟩ :=
    reaches_of_application rfl rfl hcode hshaped hroom heval henter
  rw [List.length_map] at hlookup
  exact ⟨n, m, inner, hrun, hb ▸ hfaces,
    forall₂_lookup? hws (ValueOf.allMadeOf_iff.1 hmade) hlookup, hothers⟩

/-- The definition of a name by a number, on the first line. -/
def NameDefinition.ofDigits (name digits : String) : NameDefinition where
  equation := { kind := .equation, text := none, line := 1 }
  name := { kind := .identifier, text := some name, line := 1 }
  value := .leaf { kind := .integer, text := some digits, line := 1 }
  isEquation := rfl
  isName := rfl

/-- Where `x = 1` is the only definition, `x` stands for the tuple of 1. Beside `y = 2` it stands
    for 1. -/
theorem Program.simultaneous_binds_single :
    let x := NameDefinition.ofDigits "x" "1"
    let y := NameDefinition.ofDigits "y" "2"
    let label (kind : Kind) : Label := { kind, text := none, line := 1 }
    let tree (ds : List NameDefinition) :=
      letAll (label .letIn) (label .simultaneous) ds (.leaf x.name)
    (∃ p n m env, (Arena.ofTree (tree [x])).program = .ok p ∧
      (Machine.start p (Sink.withRoom none)).runFor n = .running m ∧ m.Faces p (.leaf x.name) env ∧
      env.lookup? "x" = some (.tuple [.integer 1])) ∧
    ∃ p n m env, (Arena.ofTree (tree [x, y])).program = .ok p ∧
      (Machine.start p (Sink.withRoom none)).runFor n = .running m ∧ m.Faces p (.leaf x.name) env ∧
      env.lookup? "x" = some (.integer 1) ∧ env.lookup? "y" = some (.integer 2) := by
  intro x y label tree
  have hconstant {name digits : String} {n : Int64} (h : Integer.ofText? digits = some n) :
      IsConstant (NameDefinition.ofDigits name digits).value (.integer n) :=
    isConstant_leaf rfl fun env => by simp [Label.operate, Label.content, h, FaultOf.orOverflow]
  have hx : IsConstant x.value (.integer 1) := hconstant (by decide +kernel)
  have hy : IsConstant y.value (.integer 2) := hconstant (by decide +kernel)
  have hdata (n : Int64) : (ValueOf.integer n : Value).IsData := ⟨.integer n, rfl⟩
  have hbody : IsSource .expression (.leaf x.name) := .plain rfl (List.forall_mem_nil _)
  have hbuilds : ∃ q, (Arena.ofTree (.leaf x.name)).program = .ok q :=
    (exists_iff_bindsParameters hbody.isExpression).2
      (x.isName_name.standard.symm ▸ bindsParameters_leaf (by decide))
  have hreaches {ds : List NameDefinition} {runs : List (Program × Value)} (hne : ds ≠ [])
      (hnodup : (ds.map NameDefinition.var).Nodup) (hds : ∀ d ∈ ds, d.value.IsExpression)
      (hruns : YieldAll ds runs) : ∃ p n m env, (Arena.ofTree (tree ds)).program = .ok p ∧
        (Machine.start p (Sink.withRoom none)).runFor n = .running m ∧
        m.Faces p (.leaf x.name) env ∧
        List.Forall₂ (fun d r => ∃ v, r.1.SameValue p r.2 v ∧
          env.lookup? d.var = some (if ds.length = 1 then .tuple [v] else v)) ds runs := by
    obtain ⟨-, hprogram, hbinds⟩ := (simultaneous_binds (l := label .letIn)
      (s := label .simultaneous) rfl rfl hnodup hds hruns hbody.isExpression).2 hne
    obtain ⟨p, hp⟩ := hprogram.2 hbuilds
    obtain ⟨n, m, env, hrun, hfaces, hlookup, -⟩ := hbinds p hp (.withRoom none) rfl
    exact ⟨p, n, m, env, hp, hrun, x.isName_name.standard ▸ hfaces, hlookup⟩
  obtain ⟨px, hpx, n₁, m₁, hrunx, -⟩ := exists_of_isConstant hx (.withRoom none)
  obtain ⟨py, hpy, n₂, m₂, hruny, -⟩ := exists_of_isConstant hy (.withRoom none)
  have hyields : YieldAll [x] [(px, .integer 1)] := .cons ⟨hpx, n₁, m₁, hrunx⟩ .nil
  have hyields' : YieldAll [x, y] [(px, .integer 1), (py, .integer 2)] :=
    .cons ⟨hpx, n₁, m₁, hrunx⟩ (.cons ⟨hpy, n₂, m₂, hruny⟩ .nil)
  have hexpressions : ∀ d ∈ [x, y], d.value.IsExpression :=
    List.forall_mem_cons.2
      ⟨hx.isSource.isExpression, List.forall_mem_singleton.2 hy.isSource.isExpression⟩
  constructor
  · obtain ⟨p, n, m, env, hp, hrun, hfaces, hlookup⟩ := hreaches (by decide) (by decide)
      (List.forall_mem_singleton.2 hx.isSource.isExpression) hyields
    obtain ⟨⟨v, hsame, hv⟩, -⟩ := List.forall₂_cons.1 hlookup
    obtain rfl := hsame.eq_of_isData (hdata 1)
    exact ⟨p, n, m, env, hp, hrun, hfaces, hv⟩
  · obtain ⟨p, n, m, env, hp, hrun, hfaces, hlookup⟩ :=
      hreaches (by decide) (by decide) hexpressions hyields'
    obtain ⟨⟨v, hsame, hv⟩, hlookup⟩ := List.forall₂_cons.1 hlookup
    obtain ⟨⟨w, hsame', hw⟩, -⟩ := List.forall₂_cons.1 hlookup
    obtain rfl := hsame.eq_of_isData (hdata 1)
    obtain rfl := hsame'.eq_of_isData (hdata 2)
    exact ⟨p, n, m, env, hp, hrun, hfaces, hv, hw⟩

end Rpal
