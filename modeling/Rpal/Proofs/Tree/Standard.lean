import Rpal.Proofs.Tree.Source

/-!
# Standardization of trees

The rules of standardization as a function on trees, and the form of the trees that it makes. The
rules are applied from the leaves to the root, so that the definitions that a rule takes apart are
equations already.

## Key results

- `standard_letIn` to `standard_recursive`: what the canonical form of each construct is
- `IsSource.standard`: an expression comes into canonical form, and a definition becomes an equation
-/

namespace Rpal

/-- The label of a node for `kind` beside one labelled `l`. -/
def Label.beside (l : Label) (kind : Kind) : Label :=
  { kind, text := none, line := l.line }

/-- The label for `kind` in the place of `l`. -/
def Label.turned (l : Label) (kind : Kind) : Label :=
  { l with kind }

@[simp] theorem Label.kind_beside (l : Label) (kind : Kind) : (l.beside kind).kind = kind := rfl

@[simp] theorem Label.kind_turned (l : Label) (kind : Kind) : (l.turned kind).kind = kind := rfl

/-- The construct has a rule. -/
def Kind.hasRule : Kind → Bool
  | .letIn | .whereIn | .functionForm | .lambda | .atName | .within | .simultaneous
  | .recursive => true
  | _ => false

namespace Tree

/-- The parameters and the body of a function, nested as one lambda for each parameter. -/
def nest : List (Tree Label) → Tree Label
  | [] => default
  | [e] => e
  | v :: e :: more => node (v.label.beside .lambda) [v, nest (e :: more)]

/-- The two sides of an equation. -/
def sides? : Tree Label → Option (Tree Label × Tree Label)
  | node l [x, e] => if l.kind = .equation then some (x, e) else none
  | _ => none

/-- The node labelled `l` over `ts` after the rule for its construct. -/
def rewrite (l : Label) (ts : List (Tree Label)) : Tree Label :=
  match l.kind, ts with
  | .letIn, [node eq [x, e₁], e₂] =>
    node (l.turned .gamma) [node (eq.turned .lambda) [x, e₂], e₁]
  | .whereIn, [e₂, node eq [x, e₁]] =>
    node (l.turned .gamma) [node (eq.turned .lambda) [x, e₂], e₁]
  | .functionForm, p :: v :: more => node (l.turned .equation) [p, nest (v :: more)]
  | .lambda, v :: e :: more => node l [v, nest (e :: more)]
  | .atName, [e₁, n, e₂] =>
    node (l.turned .gamma) [node (l.beside .gamma) [n, e₁], e₂]
  | .within, [node _ [x₁, e₁], node _ [x₂, e₂]] =>
    node (l.turned .equation)
      [x₂, node (l.beside .gamma) [node (l.beside .lambda) [x₁, e₂], e₁]]
  | .simultaneous, ds =>
    node (l.turned .equation)
      [node (l.beside .names) ((ds.filterMap sides?).map Prod.fst),
        node (l.beside .tau) ((ds.filterMap sides?).map Prod.snd)]
  | .recursive, [node _ [x, e]] =>
    node (l.turned .equation)
      [x, node (l.beside .gamma) [leaf (l.beside .ystar), node (l.beside .lambda) [x, e]]]
  | _, ts => node l ts

mutual

/-- The tree after the rules for all its nodes, every node after its children. -/
def standard : Tree Label → Tree Label
  | node l ts => rewrite l (standardAll ts)

/-- `standard` on a list of trees. -/
def standardAll : List (Tree Label) → List (Tree Label)
  | [] => []
  | t :: ts => t.standard :: standardAll ts

end

@[simp] theorem standardAll_eq_map (ts : List (Tree Label)) : standardAll ts = ts.map standard := by
  induction ts with
  | nil => rfl
  | cons t ts ih => simp [standardAll, ih]

/-- The tree is what a function can bind in canonical form: a name, or a list of such trees. -/
inductive IsBinder : Tree Label → Prop where
  | name {t} : IsName t → IsBinder t
  | names {l : Label} {ts} : l.kind = .names → 2 ≤ ts.length → (∀ t ∈ ts, IsBinder t) →
      IsBinder (.node l ts)

/-- The tree is the first child of a lambda in canonical form. -/
inductive IsBound : Tree Label → Prop where
  | binder {t} : IsBinder t → IsBound t
  | unit {l : Label} : l.kind = .unit → IsBound (.leaf l)

/-- The tree is an expression in canonical form. A fixpoint finder is always applied to a lambda. -/
inductive IsStandard : Tree Label → Prop where
  | plain {l : Label} {ts} : l.kind.takes ts.length → (∀ t ∈ ts, IsStandard t) →
      IsStandard (.node l ts)
  | lambda {l : Label} {x e} : l.kind = .lambda → IsBound x → IsStandard e →
      IsStandard (.node l [x, e])
  | fixpoint {l ly ll : Label} {x e} : l.kind = .gamma → ly.kind = .ystar → ll.kind = .lambda →
      IsBound x → IsStandard e → IsStandard (.node l [.leaf ly, .node ll [x, e]])

/-- The tree is a definition in canonical form, an equation. -/
inductive IsEquation : Tree Label → Prop where
  | mk {l : Label} {x e} : l.kind = .equation → IsBinder x → IsStandard e →
      IsEquation (.node l [x, e])

/-- An equation has a binder on its left side and a standard tree on its right. -/
theorem IsEquation.exists_eq {t : Tree Label} (h : IsEquation t) :
    ∃ l x e, t = .node l [x, e] ∧ l.kind = .equation ∧ IsBinder x ∧ IsStandard e := by
  cases h with
  | mk hl hx he => exact ⟨_, _, _, rfl, hl, hx, he⟩

/-! ### The rules -/

section

variable {l eq eq₁ eq₂ : Label} {p v n x e f e₁ e₂ x₁ x₂ : Tree Label}

/-- `let x = e₁ in e₂` applies a function of `x` to `e₁`. -/
theorem rewrite_letIn (hl : l.kind = .letIn) : rewrite l [node eq [x, e₁], e₂] =
    node (l.turned .gamma) [node (eq.turned .lambda) [x, e₂], e₁] := by
  cases l
  cases hl
  rfl

/-- `e₂ where x = e₁` is the `let` with its sides the other way round. -/
theorem rewrite_whereIn (hl : l.kind = .whereIn) : rewrite l [e₂, node eq [x, e₁]] =
    node (l.turned .gamma) [node (eq.turned .lambda) [x, e₂], e₁] := by
  cases l
  cases hl
  rfl

/-- `p v ... = e` defines `p` as nested functions. -/
theorem rewrite_functionForm (hl : l.kind = .functionForm) (more : List (Tree Label)) :
    rewrite l (p :: v :: more) = node (l.turned .equation) [p, nest (v :: more)] := by
  cases l
  cases hl
  rfl

/-- `fn v ... . e` is a nest of functions. -/
theorem rewrite_lambda (hl : l.kind = .lambda) (more : List (Tree Label)) :
    rewrite l (v :: more ++ [e]) = node l [v, nest (more ++ [e])] := by
  cases l
  cases hl
  cases more <;> rfl

/-- As `rewrite_lambda`, with what follows the first parameter in one list. -/
theorem rewrite_lambda_cons (hl : l.kind = .lambda) (more : List (Tree Label)) :
    rewrite l (v :: e :: more) = node l [v, nest (e :: more)] := by
  cases l
  cases hl
  rfl

/-- `e₁ @n e₂` applies `n` to `e₁`, and the result to `e₂`. -/
theorem rewrite_atName (hl : l.kind = .atName) : rewrite l [e₁, n, e₂] =
    node (l.turned .gamma) [node (l.beside .gamma) [n, e₁], e₂] := by
  cases l
  cases hl
  rfl

/-- `x₁ = e₁ within x₂ = e₂` defines `x₂` by a function of `x₁`, applied to `e₁`. -/
theorem rewrite_within (hl : l.kind = .within) :
    rewrite l [node eq₁ [x₁, e₁], node eq₂ [x₂, e₂]] = node (l.turned .equation)
      [x₂, node (l.beside .gamma) [node (l.beside .lambda) [x₁, e₂], e₁]] := by
  cases l
  cases hl
  rfl

/-- `and` gathers the left sides in a list of names and the right sides in a tuple. -/
theorem rewrite_simultaneous (hl : l.kind = .simultaneous) (ds : List (Tree Label)) :
    rewrite l ds = node (l.turned .equation)
      [node (l.beside .names) ((ds.filterMap sides?).map Prod.fst),
        node (l.beside .tau) ((ds.filterMap sides?).map Prod.snd)] := by
  cases l
  cases hl
  rfl

/-- `rec x = e` defines `x` as the fixed point of a function of `x`. -/
theorem rewrite_recursive (hl : l.kind = .recursive) : rewrite l [node eq [x, e]] =
    node (l.turned .equation)
      [x, node (l.beside .gamma) [leaf (l.beside .ystar), node (l.beside .lambda) [x, e]]] := by
  cases l
  cases hl
  rfl

end

/-! ### Constructs without a rule -/

/-- Constructs without a rule stay. -/
theorem rewrite_of_hasRule_eq_false {l : Label} (h : l.kind.hasRule = false)
    (ts : List (Tree Label)) : rewrite l ts = node l ts := by
  unfold rewrite
  cases hk : l.kind <;> simp [hk, Kind.hasRule] at h <;> rfl

/-- A construct over expressions has no rule. -/
theorem hasRule_of_takes {kind : Kind} {n : Nat} (h : kind.takes n = true) :
    kind.hasRule = false := by
  cases kind <;> first | rfl | exact nomatch h

/-- A node without a rule only has its children rewritten. -/
theorem standard_of_hasRule_eq_false {l : Label} (h : l.kind.hasRule = false)
    (ts : List (Tree Label)) : (node l ts).standard = node l (ts.map standard) := by
  rw [standard, rewrite_of_hasRule_eq_false h, standardAll_eq_map]

/-- A name stays as it is. -/
theorem IsName.standard {t : Tree Label} (h : IsName t) : t.standard = t := by
  obtain ⟨l, hl, rfl⟩ := h
  exact standard_of_hasRule_eq_false (by rw [hl]; rfl) []

/-- A pattern stays as it is. -/
theorem IsPattern.standard {t : Tree Label} (h : IsPattern t) : t.standard = t := by
  cases h with
  | name h => exact h.standard
  | @names l ts hl _ hts =>
    rw [standard_of_hasRule_eq_false (by rw [hl]; rfl)]
    rw [List.map_congr_left fun t ht => (hts t ht).standard, List.map_id']

/-- A parameter stays as it is. -/
theorem IsParameter.standard {t : Tree Label} (h : IsParameter t) : t.standard = t := by
  cases h with
  | pattern h => exact h.standard
  | unit hl => exact standard_of_hasRule_eq_false (by rw [hl]; rfl) []

/-- Parameters stay as they are. -/
theorem map_standard_parameters {vs : List (Tree Label)} (h : ∀ v ∈ vs, IsParameter v) :
    vs.map Tree.standard = vs := by
  rw [List.map_congr_left fun v hv => (h v hv).standard, List.map_id']

/-- The left side of an equation is what a function can bind in canonical form. -/
theorem IsPattern.isBinder {t : Tree Label} (h : IsPattern t) : IsBinder t := by
  cases h with
  | name h => exact .name h
  | names hl hlen hts => exact .names hl hlen fun t ht => .name (hts t ht)

/-- The parameter of a function is the first child of a lambda in canonical form. -/
theorem IsParameter.isBound {t : Tree Label} (h : IsParameter t) : IsBound t := by
  cases h with
  | pattern h => exact .binder h.isBinder
  | unit hl => exact .unit hl

/-! ### Constructs with a rule -/

section

variable {l eq eq₁ eq₂ : Label} {n f v d d₁ d₂ x x₁ x₂ e e₁ e₂ : Tree Label}
  {vs ds : List (Tree Label)}

/-- The standard form of `e₁ @n e₂`. -/
theorem standard_atName (hl : l.kind = .atName) (hn : IsName n) : (node l [e₁, n, e₂]).standard =
    node (l.turned .gamma) [node (l.beside .gamma) [n, e₁.standard], e₂.standard] := by
  rw [standard, standardAll_eq_map, List.map_cons, List.map_cons, hn.standard, List.map_singleton,
    rewrite_atName hl]

/-- The standard form of `let`, given the one of its definition. -/
theorem standard_letIn (hl : l.kind = .letIn) (hd : d.standard = node eq [x, e₁]) :
    (node l [d, e₂]).standard =
      node (l.turned .gamma) [node (eq.turned .lambda) [x, e₂.standard], e₁] := by
  rw [standard, standardAll_eq_map, List.map_cons, List.map_singleton, hd, rewrite_letIn hl]

/-- The standard form of `where`, given the one of its definition. -/
theorem standard_whereIn (hl : l.kind = .whereIn) (hd : d.standard = node eq [x, e₁]) :
    (node l [e₂, d]).standard =
      node (l.turned .gamma) [node (eq.turned .lambda) [x, e₂.standard], e₁] := by
  rw [standard, standardAll_eq_map, List.map_cons, List.map_singleton, hd, rewrite_whereIn hl]

/-- The standard form of a function of several parameters. -/
theorem standard_lambda (hl : l.kind = .lambda) (hvs : ∀ w ∈ v :: vs, IsParameter w) :
    (node l (v :: vs ++ [e])).standard = node l [v, nest (vs ++ [e.standard])] := by
  rw [standard, standardAll_eq_map, List.map_append, map_standard_parameters hvs,
    List.map_singleton, rewrite_lambda hl]

/-- The standard form of a function definition. -/
theorem standard_functionForm (hl : l.kind = .functionForm) (hf : IsName f) (hne : vs ≠ [])
    (hvs : ∀ v ∈ vs, IsParameter v) : (node l (f :: (vs ++ [e]))).standard =
      node (l.turned .equation) [f, nest (vs ++ [e.standard])] := by
  obtain ⟨v, more, rfl⟩ := List.exists_cons_of_ne_nil hne
  rw [standard, standardAll_eq_map, List.map_cons, List.map_append, map_standard_parameters hvs,
    hf.standard, List.map_singleton, List.cons_append, rewrite_functionForm hl]

/-- The standard form of `within`, given those of its definitions. -/
theorem standard_within (hl : l.kind = .within) (h₁ : d₁.standard = node eq₁ [x₁, e₁])
    (h₂ : d₂.standard = node eq₂ [x₂, e₂]) : (node l [d₁, d₂]).standard =
      node (l.turned .equation)
        [x₂, node (l.beside .gamma) [node (l.beside .lambda) [x₁, e₂], e₁]] := by
  rw [standard, standardAll_eq_map, List.map_cons, List.map_singleton, h₁, h₂, rewrite_within hl]

/-- The standard form of `and`, given the sides of its standardized operands. -/
theorem standard_simultaneous (hl : l.kind = .simultaneous)
    {sides : List (Tree Label × Tree Label)} (hds : (ds.map standard).filterMap sides? = sides) :
    (node l ds).standard = node (l.turned .equation)
      [node (l.beside .names) (sides.map Prod.fst), node (l.beside .tau) (sides.map Prod.snd)] := by
  rw [standard, standardAll_eq_map, rewrite_simultaneous hl, hds]

/-- The standard form of `rec`, given the one of its definition. -/
theorem standard_recursive (hl : l.kind = .recursive) (hd : d.standard = node eq [x, e]) :
    (node l [d]).standard = node (l.turned .equation)
      [x, node (l.beside .gamma) [leaf (l.beside .ystar), node (l.beside .lambda) [x, e]]] := by
  rw [standard, standardAll_eq_map, List.map_singleton, hd, rewrite_recursive hl]

end

/-! ### Canonical form -/

/-- Nested lambdas over a canonical body are in canonical form. -/
theorem isStandard_nest {vs : List (Tree Label)} {e : Tree Label} (hvs : ∀ v ∈ vs, IsBound v)
    (he : IsStandard e) : IsStandard (nest (vs ++ [e])) := by
  induction vs with
  | nil => exact he
  | cons v vs ih =>
    obtain ⟨hv, hvs⟩ := List.forall_mem_cons.1 hvs
    cases vs with
    | nil => exact .lambda rfl hv he
    | cons w ws => exact .lambda rfl hv (ih hvs)

/-- The sides of equations are all there. -/
theorem filterMap_sides?_map {ds : List (Tree Label)} (h : ∀ d ∈ ds, IsEquation d) :
    ∃ pairs : List (Tree Label × Tree Label), ds.filterMap sides? = pairs ∧
      pairs.length = ds.length ∧ ∀ p ∈ pairs, IsBinder p.1 ∧ IsStandard p.2 := by
  induction ds with
  | nil => exact ⟨[], rfl, rfl, nofun⟩
  | cons d ds ih =>
    obtain ⟨hd, hds⟩ := List.forall_mem_cons.1 h
    obtain ⟨pairs, heq, hlen, hpairs⟩ := ih hds
    cases hd with
    | @mk l x e hl hx he =>
      refine ⟨(x, e) :: pairs, ?_, by simp [hlen], List.forall_mem_cons.2 ⟨⟨hx, he⟩, hpairs⟩⟩
      rw [List.filterMap_cons_some (b := (x, e)) (by simp [sides?, hl]), heq]

/-- What an expression and a definition become. -/
def Role.Standard : Role → Tree Label → Prop
  | expression => IsStandard
  | definition => IsEquation

/-- A name is in canonical form. -/
theorem IsName.isStandard {t : Tree Label} (h : IsName t) : IsStandard t := by
  obtain ⟨l, hl, rfl⟩ := h
  exact .plain (by rw [hl]; rfl) nofun

/-- An application of two trees in canonical form. -/
theorem isStandard_gamma {l : Label} {f a : Tree Label} (hl : l.kind = .gamma) (hf : IsStandard f)
    (ha : IsStandard a) : IsStandard (node l [f, a]) :=
  .plain (by rw [hl]; rfl) (by simpa using ⟨hf, ha⟩)

/-- A part of a program comes into the canonical form of its role. -/
theorem IsSource.standard {r : Role} {t : Tree Label} (h : IsSource r t) :
    r.Standard t.standard := by
  induction h with
  | plain htakes _ ih =>
    rw [standard_of_hasRule_eq_false (hasRule_of_takes htakes)]
    exact .plain (by simpa using htakes) (List.forall_mem_map.2 ih)
  | atName hl _ hn _ ih₁ ih₂ =>
    rw [standard_atName hl hn]
    exact isStandard_gamma rfl (isStandard_gamma rfl hn.isStandard ih₁) ih₂
  | letIn hl _ _ ihd ihe =>
    -- the canonical form of a definition is an equation, whose sides the rule takes apart
    obtain ⟨eq, x, e₁, hd, -, hx, he₁⟩ := IsEquation.exists_eq ihd
    rw [standard_letIn hl hd]
    exact isStandard_gamma rfl (.lambda rfl (.binder hx) ihe) he₁
  | whereIn hl _ _ ihe ihd =>
    obtain ⟨eq, x, e₁, hd, -, hx, he₁⟩ := IsEquation.exists_eq ihd
    rw [standard_whereIn hl hd]
    exact isStandard_gamma rfl (.lambda rfl (.binder hx) ihe) he₁
  | lambda hl hne hvs _ ih =>
    obtain ⟨v, more, rfl⟩ := List.exists_cons_of_ne_nil hne
    obtain ⟨hv, hmore⟩ := List.forall_mem_cons.1 hvs
    rw [standard_lambda hl hvs]
    exact .lambda hl hv.isBound (isStandard_nest (fun w hw => (hmore w hw).isBound) ih)
  | equation hl hx _ ih =>
    rw [standard_of_hasRule_eq_false (by rw [hl]; rfl), List.map_cons, hx.standard]
    exact .mk hl hx.isBinder ih
  | functionForm hl hf hne hvs _ ih =>
    rw [standard_functionForm hl hf hne hvs]
    exact .mk rfl (.name hf) (isStandard_nest (fun w hw => (hvs w hw).isBound) ih)
  | within hl _ _ ih₁ ih₂ =>
    obtain ⟨eq₁, x₁, e₁, hd₁, -, hx₁, he₁⟩ := IsEquation.exists_eq ih₁
    obtain ⟨eq₂, x₂, e₂, hd₂, -, hx₂, he₂⟩ := IsEquation.exists_eq ih₂
    rw [standard_within hl hd₁ hd₂]
    exact .mk rfl hx₂ (isStandard_gamma rfl (.lambda rfl (.binder hx₁) he₂) he₁)
  | @simultaneous l ds hl hlen _ ih =>
    -- as many names and right sides as definitions
    obtain ⟨pairs, hpairs, hlen', hsides⟩ := filterMap_sides?_map (List.forall_mem_map.2 ih)
    rw [List.length_map] at hlen'
    rw [standard_simultaneous hl hpairs]
    refine .mk rfl (.names rfl ?_ (List.forall_mem_map.2 fun p hp => (hsides p hp).1))
      (.plain ?_ (List.forall_mem_map.2 fun p hp => (hsides p hp).2))
    · rw [List.length_map]
      omega
    · rw [List.length_map, hlen']
      simpa [Kind.takes] using hlen
  | recursive hl _ ih =>
    obtain ⟨eq, x, e, hd, -, hx, he⟩ := IsEquation.exists_eq ih
    rw [standard_recursive hl hd]
    exact .mk rfl hx (.fixpoint rfl rfl rfl (.binder hx) he)

end Tree

end Rpal
