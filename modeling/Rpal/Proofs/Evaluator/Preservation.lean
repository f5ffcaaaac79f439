import Rpal.Proofs.Control.Acceptance
import Rpal.Proofs.Control.Codes
import Rpal.Proofs.Evaluator.Agreement

/-!
# Standardization preserves meaning

A parsed tree, evaluated as it is, and its canonical form have the same value, the same output and
the same error. The functions of the parsed tree have numbers for this, the same as those of the
canonical form.

## Key results

- `IsSource.comes`: the canonical form comes from the parsed tree, rule by rule
- `standard_evaluates_alike`: both are evaluated alike, up to any limit
-/

namespace Rpal.Tree

/-! ### The names of definitions -/

section

variable {α β : Type} [Labelled α] [Labelled β]

/-- Definitions bind the names of each of them. -/
theorem definedNamesAll_eq_flatMap (ds : List (Tree α)) :
    definedNamesAll ds = ds.flatMap definedNames := by
  induction ds with
  | nil => rfl
  | cons d ds ih => rw [definedNamesAll, ih, List.flatMap_cons]

/-- A definition binds the same names when its labels say the same of constructs. -/
theorem definedNames_map {f : α → β} (hf : ∀ a, Labelled.toLabel (f a) = Labelled.toLabel a)
    (t : Tree α) : (t.map f).definedNames = t.definedNames := by
  induction t using Tree.induct with
  | node a ts ih =>
    have hhead : ∀ x ∈ ts, (x.map f).boundNames = x.boundNames := fun x _ => boundNames_map hf x
    have hall : definedNamesAll (ts.map (Tree.map f)) = definedNamesAll ts := by
      rw [definedNamesAll_eq_flatMap, definedNamesAll_eq_flatMap, List.flatMap_map]
      exact List.flatMap_congr ih
    rw [Tree.map, mapAll_eq_map, definedNames.eq_def, definedNames.eq_def]
    simp only [hf]
    cases (Labelled.toLabel a).kind with
    | simultaneous => exact hall
    | _ =>
      -- the number of children matters for recursive and inner definitions
      rcases ts with - | ⟨x, - | ⟨y, - | ⟨z, ts⟩⟩⟩
      · rfl
      all_goals
        simp only [List.map_cons, List.map_nil]
        first
        | exact hhead x List.mem_cons_self
        | exact ih _ (by simp)

end

variable {t : Tree Label}

/-- Unless it binds a nested list, a definition binds the names of its pattern. -/
theorem definedNames_eq {r : Role} (h : IsSource r t) (hr : r = .definition) (hflat : t.IsFlat) :
    t.definedNames = t.pattern.boundNames := by
  induction h with
  | plain | atName | letIn | whereIn | lambda => cases hr
  | @equation l x e hl =>
    rw [pattern_equation hl, definedNames.eq_def]
    simp only [Labelled.toLabel, id, hl]
  | @functionForm l f vs e hl =>
    rw [pattern_functionForm hl, definedNames.eq_def]
    simp only [Labelled.toLabel, id, hl]
  | @within l d₁ d₂ hl _ _ _ ih =>
    rw [isFlat_node (by rw [hl]; decide)] at hflat
    rw [pattern_within hl, ← ih rfl (hflat d₂ (by simp)), definedNames.eq_def]
    simp only [Labelled.toLabel, id, hl]
  | @recursive l d hl _ ih =>
    rw [isFlat_node (by rw [hl]; decide)] at hflat
    rw [pattern_recursive hl, ← ih rfl (hflat d (by simp)), definedNames.eq_def]
    simp only [Labelled.toLabel, id, hl]
  | @simultaneous l ds hl hlen hds ih =>
    rw [isFlat_simultaneous hl] at hflat
    -- in a tree that is flat, each of the definitions binds a single name
    have hnames : ∀ d ∈ ds, d.definedNames = [d.pattern.label.content] := by
      intro d hd
      obtain ⟨-, -, -, -, hbinder, -⟩ := (hds d hd).flattens
      obtain ⟨x, hx, heq⟩ := hbinder.isNaming.isName_iff.2 (hflat.1 d hd)
      rw [ih d hd rfl (hflat.2 d hd), heq]
      exact boundNames_of_ne (by rw [show Labelled.toLabel x = x from rfl, hx]; decide)
        (by rw [show Labelled.toLabel x = x from rfl, hx]; decide)
    rw [pattern_simultaneous hl, definedNames.eq_def]
    simp only [Labelled.toLabel, id, hl, definedNamesAll_eq_flatMap, boundNames, Label.kind_beside,
      List.map_map]
    rw [List.flatMap_congr hnames]
    exact List.map_eq_flatMap.symm

/-! ### Trees with numbers -/

section

variable {l f : Label} {x a e : Tree Label} {u : Tree Numbered}

/-- A function that is applied at once opens a scope. -/
theorem exists_binds (hl : l.kind = .gamma) (hf : f.kind = .lambda)
    (h : u.map Numbered.label = node l [node f [x, e], a]) :
    ∃ v w, v.map Numbered.label = a ∧ w.map Numbered.label = e ∧
      Binds l.line x.boundNames v w u := by
  obtain ⟨n, y, v, rfl, hy, hv⟩ := exists_of_map_eq_two h
  obtain ⟨m, z, w, rfl, rfl, hw⟩ := exists_of_map_eq_two hy
  exact ⟨v, w, hv, hw, .mk hl rfl hf (boundNames_map (f := Numbered.label) (fun _ => rfl) z).symm⟩

end

/-! ### Rules -/

/-- The right side of an equation. -/
def right : Tree Label → Tree Label
  | node _ [_, e] => e
  | t => t

/-- The canonical form of an expression, or of the right side of a definition. -/
def Role.form : Role → Tree Label → Tree Label
  | expression, t => t.standard
  | definition, t => t.standard.right

/-- No identifier is `Conc`. -/
def AvoidsConc (t : Tree Label) : Prop :=
  ∀ l ∈ t.preorder, l.kind = .identifier → l.content ∉ ["Conc", "conc"]

instance (t : Tree Label) : Decidable t.AvoidsConc :=
  inferInstanceAs (Decidable (∀ l ∈ t.preorder, _))

/-- Whatever numbers the canonical form `c` has, the tree can be given numbers so that it becomes
    this form. -/
def Comes (t c : Tree Label) : Prop :=
  ∀ u : Tree Numbered, u.map Numbered.label = c → ∃ T, T.map Numbered.label = t ∧ Becomes T u

/-- Whatever numbers the canonical form `c` of a function has, its parameters and its body can be
    given numbers so that they become this form. -/
def AreCurried (ts : List (Tree Label)) (c : Tree Label) : Prop :=
  ∀ u : Tree Numbered, u.map Numbered.label = c →
    ∃ rest, rest.map (Tree.map Numbered.label) = ts ∧ Curries rest u

section

variable {l f : Label} {ts cs vs : List (Tree Label)} {x v e c t : Tree Label}

/-- `Conc` is avoided at the root and in every child. -/
theorem avoidsConc_node : (node l ts).AvoidsConc ↔
    (l.kind = .identifier → l.content ∉ ["Conc", "conc"]) ∧ ∀ t ∈ ts, t.AvoidsConc := by
  simp only [AvoidsConc, preorder, preorderAll_eq_flatMap, List.forall_mem_cons,
    List.forall_mem_flatMap]

/-- Only two names stand for `Conc`. -/
theorem ofName?_ne_conc {name : String} (h : name ∉ ["Conc", "conc"]) :
    Builtin.ofName? name ≠ some .conc := by
  simp only [List.mem_cons, List.not_mem_nil, or_false, not_or] at h
  rw [Builtin.ofName?, if_neg h.2]
  split
  · decide
  · intro hfind
    have hname := List.find?_some hfind
    exact h.1 (of_decide_eq_true hname).symm

/-- Trees that come to canonical forms can be numbered so that they become the numbered forms. -/
theorem exists_allBecome (h : List.Forall₂ Comes ts cs) {us : List (Tree Numbered)}
    (hus : us.map (Tree.map Numbered.label) = cs) :
    ∃ Ts, Ts.map (Tree.map Numbered.label) = ts ∧ AllBecome Ts us := by
  induction h generalizing us with
  | nil => exact ⟨[], rfl, List.map_eq_nil_iff.1 hus ▸ .nil⟩
  | cons ht _ ih =>
    obtain ⟨u, us, rfl, hu, hus⟩ := List.map_eq_cons_iff.1 hus
    obtain ⟨T, hT, hTu⟩ := ht u hu
    obtain ⟨Ts, hTs, hall⟩ := ih hus
    exact ⟨T :: Ts, by rw [List.map_cons, hT, hTs], .cons hTu hall⟩

/-- A construct without a rule. -/
theorem comes_plain (htakes : l.kind.takes ts.length = true)
    (hconc : l.kind = .identifier → l.content ∉ ["Conc", "conc"])
    (hts : List.Forall₂ Comes ts cs) : Comes (node l ts) (node l cs) := by
  intro u hu
  obtain ⟨n, us, rfl, hus⟩ := exists_of_map_eq_node hu
  obtain ⟨Ts, rfl, hall⟩ := exists_allBecome hts hus
  rw [List.length_map] at htakes
  refine ⟨node ⟨l, 0⟩ Ts, by rw [Tree.map, mapAll_eq_map], ?_⟩
  exact .plain htakes (fun hk => ofName?_ne_conc (hconc hk)) hall

/-- A name. -/
theorem IsName.comes (h : IsName t) (hconc : t.AvoidsConc) : Comes t t := by
  obtain ⟨l, hl, rfl⟩ := h
  exact comes_plain (by rw [hl]; rfl) (avoidsConc_node.1 hconc).1 .nil

/-- The first parameter of a function is that of the first lambda. -/
theorem areCurried_cons (hf : f.kind = .lambda) (hne : ts ≠ []) (h : AreCurried ts c) :
    AreCurried (v :: ts) (node f [v, c]) := by
  intro u hu
  obtain ⟨t, ts, rfl⟩ := List.exists_cons_of_ne_nil hne
  obtain ⟨n, x, w, rfl, hx, hw⟩ := exists_of_map_eq_two hu
  obtain ⟨rest, hrest, hcurries⟩ := h w hw
  obtain ⟨T, rest, rfl, rfl, rfl⟩ := List.map_eq_cons_iff.1 hrest
  have hnames : x.boundNames = (v.map fun l => (⟨l, n⟩ : Numbered)).boundNames := by
    rw [boundNames_map (f := fun l => (⟨l, n⟩ : Numbered)) (fun _ => rfl), ← hx]
    exact (boundNames_map (f := Numbered.label) (fun _ => rfl) x).symm
  refine ⟨v.map (⟨·, n⟩) :: T :: rest, ?_, .parameter hf ?_ hnames hcurries⟩
  · rw [List.map_cons, map_label_constant, List.map_cons]
  · rw [label_map]

/-- The parameters of a function are those of nested lambdas. -/
theorem areCurried_nest (he : Comes e c) : AreCurried (vs ++ [e]) (nest (vs ++ [c])) := by
  induction vs with
  | nil =>
    intro u hu
    obtain ⟨T, rfl, hT⟩ := he u hu
    exact ⟨[T], rfl, .body hT⟩
  | cons v vs ih =>
    have hnest : nest (v :: vs ++ [c]) = node (v.label.beside .lambda) [v, nest (vs ++ [c])] := by
      cases vs <;> rfl
    rw [hnest]
    exact areCurried_cons rfl (List.append_ne_nil_of_right_ne_nil vs (List.cons_ne_nil e [])) ih

end

/-! ### Definitions -/

section

variable {d e c : Tree Label}

/-- A definition becomes an equation of its pattern and its right side. -/
theorem IsSource.standard_eq (h : IsSource .definition d) :
    ∃ l, l.kind = .equation ∧ d.standard = node l [d.pattern, Role.definition.form d] := by
  obtain ⟨l, e, hstandard, hl, -⟩ := h.flattens
  exact ⟨l, hl, by rw [Role.form, hstandard, right]⟩

/-- The pattern of a definition binds the names that the definition defines. -/
theorem IsSource.boundNames_pattern (h : IsSource .definition d) (hflat : d.IsFlat)
    {D : Tree Numbered} (hD : D.map Numbered.label = d) :
    d.pattern.boundNames = D.definedNames := by
  rw [← definedNames_eq h rfl hflat, ← hD]
  exact definedNames_map (f := Numbered.label) (fun _ => rfl) D

/-- The scope of a definition. -/
theorem exists_scope {l f : Label} {u : Tree Numbered} (hd : IsSource .definition d)
    (hflat : d.IsFlat) (hdcomes : Comes d (Role.definition.form d)) (he : Comes e c)
    (hl : l.kind = .gamma) (hf : f.kind = .lambda)
    (hu : u.map Numbered.label = node l [node f [d.pattern, c], Role.definition.form d]) :
    ∃ D E v w, D.map Numbered.label = d ∧ E.map Numbered.label = e ∧ Becomes D v ∧ Becomes E w ∧
      Binds l.line D.definedNames v w u := by
  obtain ⟨v, w, hv, hw, hbinds⟩ := exists_binds hl hf hu
  obtain ⟨D, hD, hDv⟩ := hdcomes v hv
  obtain ⟨E, hE, hEw⟩ := he w hw
  exact ⟨D, E, v, w, hD, hE, hDv, hEw, hd.boundNames_pattern hflat hD ▸ hbinds⟩

/-- The right sides of definitions that hold at the same time. -/
theorem filterMap_sides?_standard {ds : List (Tree Label)} (h : ∀ d ∈ ds, IsSource .definition d) :
    ((ds.map standard).filterMap sides?).map Prod.snd = ds.map Role.definition.form := by
  induction ds with
  | nil => rfl
  | cons d ds ih =>
    obtain ⟨hd, hds⟩ := List.forall_mem_cons.1 h
    obtain ⟨l, hl, hstandard⟩ := hd.standard_eq
    rw [List.map_cons, List.filterMap_cons_some (b := (d.pattern, Role.definition.form d)),
      List.map_cons, ih hds, List.map_cons]
    rw [hstandard, sides?, if_pos hl]

end

/-! ### Constructs with a rule -/

section

variable {l f : Label} {d d₁ d₂ e e₁ n e₂ p : Tree Label} {vs ds : List (Tree Label)}

/-- An application by name means two applications. -/
theorem comes_atName (hl : l.kind = .atName) (hn : IsName n) (hconc : n.AvoidsConc)
    (h₁ : Comes e₁ e₁.standard) (h₂ : Comes e₂ e₂.standard) :
    Comes (node l [e₁, n, e₂]) (node l [e₁, n, e₂]).standard := by
  rw [standard_atName hl hn]
  intro u hu
  obtain ⟨i, w, u₂, rfl, hw, hu₂⟩ := exists_of_map_eq_two hu
  obtain ⟨j, m, u₁, rfl, hm, hu₁⟩ := exists_of_map_eq_two hw
  obtain ⟨T₁, rfl, hT₁⟩ := h₁ u₁ hu₁
  obtain ⟨N, rfl, hN⟩ := hn.comes hconc m hm
  obtain ⟨T₂, rfl, hT₂⟩ := h₂ u₂ hu₂
  exact ⟨node ⟨l, 0⟩ [T₁, N, T₂], rfl, .atName hl rfl rfl rfl rfl hT₁ hN hT₂⟩

/-- A `let` means the application of a function to the value of the definition. -/
theorem comes_letIn (hl : l.kind = .letIn) (hd : IsSource .definition d) (hflat : d.IsFlat)
    (hdcomes : Comes d (Role.definition.form d)) (he : Comes e e.standard) :
    Comes (node l [d, e]) (node l [d, e]).standard := by
  obtain ⟨eq, -, hstandard⟩ := hd.standard_eq
  rw [standard_letIn hl hstandard]
  intro u hu
  obtain ⟨D, E, v, w, rfl, rfl, hD, hE, hbinds⟩ := exists_scope hd hflat hdcomes he rfl rfl hu
  exact ⟨node ⟨l, 0⟩ [D, E], rfl, .letIn hl hD hE hbinds⟩

/-- A `where` means what the `let` with the same parts does. -/
theorem comes_whereIn (hl : l.kind = .whereIn) (hd : IsSource .definition d) (hflat : d.IsFlat)
    (hdcomes : Comes d (Role.definition.form d)) (he : Comes e e.standard) :
    Comes (node l [e, d]) (node l [e, d]).standard := by
  obtain ⟨eq, -, hstandard⟩ := hd.standard_eq
  rw [standard_whereIn hl hstandard]
  intro u hu
  obtain ⟨D, E, v, w, rfl, rfl, hD, hE, hbinds⟩ := exists_scope hd hflat hdcomes he rfl rfl hu
  exact ⟨node ⟨l, 0⟩ [E, D], rfl, .whereIn hl hD hE hbinds⟩

/-- A function of several parameters means functions of one each. -/
theorem comes_lambda (hl : l.kind = .lambda) (hne : vs ≠ []) (hvs : ∀ v ∈ vs, IsParameter v)
    (he : Comes e e.standard) : Comes (node l (vs ++ [e])) (node l (vs ++ [e])).standard := by
  obtain ⟨v, more, rfl⟩ := List.exists_cons_of_ne_nil hne
  have hbody : AreCurried (more ++ [e]) (nest (more ++ [e.standard])) := areCurried_nest he
  have hmore : more ++ [e] ≠ [] := List.append_ne_nil_of_right_ne_nil more (List.cons_ne_nil e [])
  rw [standard_lambda hl hvs]
  intro u hu
  obtain ⟨rest, hrest, hcurries⟩ := areCurried_cons hl hmore hbody u hu
  exact ⟨node ⟨l, 0⟩ rest, by rw [Tree.map, mapAll_eq_map, hrest]; rfl, .lambda hl hcurries⟩

/-- An equation means its right side. -/
theorem comes_equation (hl : l.kind = .equation) (he : Comes e e.standard) :
    Comes (node l [p, e]) e.standard := by
  intro u hu
  obtain ⟨T, rfl, hT⟩ := he u hu
  refine ⟨node ⟨l, 0⟩ [p.map (⟨·, 0⟩), T], ?_, .equation hl hT⟩
  simp only [Tree.map, mapAll, map_label_constant]

/-- A function form means functions of one parameter each. -/
theorem comes_functionForm (hl : l.kind = .functionForm) (hp : IsName p) (hne : vs ≠ [])
    (hvs : ∀ v ∈ vs, IsParameter v) (he : Comes e e.standard) :
    Comes (node l (p :: (vs ++ [e]))) (node l (p :: (vs ++ [e]))).standard.right := by
  rw [standard_functionForm hl hp hne hvs, right]
  intro u hu
  obtain ⟨rest, hrest, hcurries⟩ := areCurried_nest he u hu
  refine ⟨node ⟨l, 0⟩ (p.map (⟨·, 0⟩) :: rest), ?_, .functionForm hl hcurries⟩
  rw [Tree.map, mapAll_eq_map, List.map_cons, map_label_constant, hrest]

/-- An inner definition means its value where the outer definition is bound. -/
theorem comes_within (hl : l.kind = .within) (hd₁ : IsSource .definition d₁)
    (hd₂ : IsSource .definition d₂) (hflat : d₁.IsFlat)
    (h₁ : Comes d₁ (Role.definition.form d₁)) (h₂ : Comes d₂ (Role.definition.form d₂)) :
    Comes (node l [d₁, d₂]) (node l [d₁, d₂]).standard.right := by
  obtain ⟨eq₁, -, hstandard₁⟩ := hd₁.standard_eq
  obtain ⟨eq₂, -, hstandard₂⟩ := hd₂.standard_eq
  rw [standard_within hl hstandard₁ hstandard₂, right]
  intro u hu
  obtain ⟨D, E, v, w, rfl, rfl, hD, hE, hbinds⟩ := exists_scope hd₁ hflat h₁ h₂ rfl rfl hu
  exact ⟨node ⟨l, 0⟩ [D, E], rfl, .within hl hD hE hbinds⟩

/-- Simultaneous definitions mean a tuple of their values. -/
theorem comes_simultaneous (hl : l.kind = .simultaneous) (hds : ∀ d ∈ ds, IsSource .definition d)
    (hcomes : ∀ d ∈ ds, Comes d (Role.definition.form d)) :
    Comes (node l ds) (node l ds).standard.right := by
  rw [standard_simultaneous hl rfl, right, filterMap_sides?_standard hds]
  intro u hu
  obtain ⟨n, us, rfl, hus⟩ := exists_of_map_eq_node hu
  have hforall := List.forall₂_map_right_iff.2 (List.forall₂_same.2 hcomes)
  obtain ⟨Ts, rfl, hall⟩ := exists_allBecome hforall hus
  exact ⟨node ⟨l, 0⟩ Ts, by rw [Tree.map, mapAll_eq_map], .simultaneous hl rfl hall⟩

/-- A recursive definition means the fixpoint of a function of its pattern. -/
theorem comes_recursive (hl : l.kind = .recursive) (hd : IsSource .definition d)
    (hflat : d.IsFlat) (hcomes : Comes d (Role.definition.form d)) :
    Comes (node l [d]) (node l [d]).standard.right := by
  obtain ⟨eq, -, hstandard⟩ := hd.standard_eq
  rw [standard_recursive hl hstandard, right]
  intro u hu
  obtain ⟨i, y, f, rfl, hy, hf⟩ := exists_of_map_eq_two hu
  obtain ⟨j, ys, rfl, hys⟩ := exists_of_map_eq_node hy
  obtain rfl := List.map_eq_nil_iff.1 hys
  obtain ⟨k, x, w, rfl, hx, hw⟩ := exists_of_map_eq_two hf
  obtain ⟨D, hD, hDw⟩ := hcomes w hw
  have hnames : x.boundNames = D.definedNames := by
    rw [← hd.boundNames_pattern hflat hD, ← hx]
    exact (boundNames_map (f := Numbered.label) (fun _ => rfl) x).symm
  -- the definition has the number of the function that the fixpoint is taken of
  refine ⟨node ⟨l, k⟩ [D], ?_, .recursive hl rfl rfl rfl rfl hnames hDw⟩
  rw [Tree.map, mapAll, mapAll, hD]

end

/-- The canonical form comes from the tree, rule by rule. -/
theorem IsSource.comes {r : Role} {t : Tree Label} (h : IsSource r t) (hflat : t.IsFlat)
    (hconc : t.AvoidsConc) : Comes t (r.form t) := by
  induction h with
  | plain htakes _ ih =>
    -- both restrictions carry over to the operands, by the construct of the node
    have hrule := hasRule_of_takes htakes
    rw [isFlat_node (fun hl => by rw [hl] at hrule; cases hrule)] at hflat
    rw [avoidsConc_node] at hconc
    rw [Role.form, standard_of_hasRule_eq_false hrule]
    refine comes_plain htakes hconc.1 (List.forall₂_map_right_iff.2 (List.forall₂_same.2 ?_))
    exact fun t ht => ih t ht (hflat t ht) (hconc.2 t ht)
  | atName hl _ hn _ ih₁ ih₂ =>
    simp only [isFlat_node (by rw [hl]; decide), List.forall_mem_cons] at hflat
    simp only [avoidsConc_node, List.forall_mem_cons] at hconc
    exact comes_atName hl hn hconc.2.2.1 (ih₁ hflat.1 hconc.2.1) (ih₂ hflat.2.2.1 hconc.2.2.2.1)
  | letIn hl hd _ ihd ihe =>
    simp only [isFlat_node (by rw [hl]; decide), List.forall_mem_cons] at hflat
    simp only [avoidsConc_node, List.forall_mem_cons] at hconc
    exact comes_letIn hl hd hflat.1 (ihd hflat.1 hconc.2.1) (ihe hflat.2.1 hconc.2.2.1)
  | whereIn hl _ hd ihe ihd =>
    simp only [isFlat_node (by rw [hl]; decide), List.forall_mem_cons] at hflat
    simp only [avoidsConc_node, List.forall_mem_cons] at hconc
    exact comes_whereIn hl hd hflat.2.1 (ihd hflat.2.1 hconc.2.2.1) (ihe hflat.1 hconc.2.1)
  | lambda hl hne hvs _ ih =>
    simp only [isFlat_node (by rw [hl]; decide), List.forall_mem_append,
      List.forall_mem_singleton] at hflat
    simp only [avoidsConc_node, List.forall_mem_append, List.forall_mem_singleton] at hconc
    exact comes_lambda hl hne hvs (ih hflat.2 hconc.2.2)
  | equation hl hx _ ih =>
    simp only [isFlat_node (by rw [hl]; decide), List.forall_mem_cons] at hflat
    simp only [avoidsConc_node, List.forall_mem_cons] at hconc
    rw [Role.form, standard_of_hasRule_eq_false (by rw [hl]; rfl)]
    exact comes_equation hl (ih hflat.2.1 hconc.2.2.1)
  | functionForm hl hf hne hvs _ ih =>
    simp only [isFlat_node (by rw [hl]; decide), List.forall_mem_cons, List.forall_mem_append]
      at hflat
    simp only [avoidsConc_node, List.forall_mem_cons, List.forall_mem_append] at hconc
    exact comes_functionForm hl hf hne hvs (ih hflat.2.2.1 hconc.2.2.2.1)
  | within hl h₁ h₂ ih₁ ih₂ =>
    simp only [isFlat_node (by rw [hl]; decide), List.forall_mem_cons] at hflat
    simp only [avoidsConc_node, List.forall_mem_cons] at hconc
    exact comes_within hl h₁ h₂ hflat.1 (ih₁ hflat.1 hconc.2.1) (ih₂ hflat.2.1 hconc.2.2.1)
  | simultaneous hl _ hds ih =>
    rw [isFlat_simultaneous hl] at hflat
    rw [avoidsConc_node] at hconc
    exact comes_simultaneous hl hds fun d hd => ih d hd (hflat.2 d hd) (hconc.2 d hd)
  | recursive hl hd ih =>
    simp only [isFlat_node (by rw [hl]; decide), List.forall_mem_cons] at hflat
    simp only [avoidsConc_node, List.forall_mem_cons] at hconc
    exact comes_recursive hl hd hflat.1 (ih hflat.1 hconc.2.1)

/-! ### Programs -/

/-- A tree that has control structures binds no nested lists. -/
theorem isFlat_of_program {t : Tree Label} {p : Program} (ht : IsSource .expression t)
    (hp : (Arena.ofTree t).program = .ok p) : t.IsFlat := by
  obtain ⟨a, root, F, hform, -, hroot, hmark, hunfolds⟩ :=
    Arena.unfolds_standardForm (.inl ⟨_, ht⟩)
  have hdecides := Arena.control_decides hmark hroot hunfolds ht.standard
  simp only [Arena.program, hform, Except.mapError, bind, Except.bind] at hp
  rw [← ht.bindsParameters_iff]
  cases hcontrol : a.control with
  | ok c =>
    rw [hcontrol] at hdecides
    exact hdecides
  | error e =>
    rw [hcontrol] at hp
    cases hp

/-- A tree of the parser in which no identifier is `Conc`, and from which a program is built, has
    the same meaning as its canonical form. Numbers can be given to the functions of the tree so
    that its direct evaluation and the evaluation of the canonical form are both beyond any limit,
    or print the same values and end with the same value or error. -/
theorem standard_evaluates_alike {tokens : List Token} {t : Tree Label} {p : Program}
    (ht : Tree.ofTokens tokens = .ok t) (hp : (Arena.ofTree t).program = .ok p)
    (hconc : t.AvoidsConc) :
    p.arena.rootTree? = some t.standard ∧
      ∃ T : Tree Numbered, T.map Numbered.label = t ∧ ∀ limit,
        Direct.Agrees Direct.Same (Direct.evaluate limit T) (t.standard.numbered.evaluate limit) ∧
        (Direct.evaluate limit T).shown = (t.standard.numbered.evaluate limit).shown := by
  have hsource := isSource_of_ofTokens ht
  have hflat := isFlat_of_program hsource hp
  refine ⟨(Program.codes_of_ofTree (.inl ⟨_, hsource⟩) hsource.standard hp).1, ?_⟩
  obtain ⟨T, hT, hbecomes⟩ := hsource.comes hflat hconc t.standard.numbered (map_label_numbered _)
  refine ⟨T, hT, fun limit => ?_⟩
  have henv : (EnvOf.outermost : EnvOf Pairing).MadeOf Pairing.parts := trivial
  have hagrees : Direct.Agrees Direct.Same (Direct.evaluate limit T)
      (t.standard.numbered.evaluate limit) :=
    (Direct.agrees_value (Direct.agrees_level limit) henv hbecomes none).result
  exact ⟨hagrees, hagrees.shown_eq⟩

/-- The program `let rec f n = n eq 0 -> 1 | n * f (n - 1) within g = f in g 3`, in which a recursive
    definition holds within another definition. -/
theorem standard_evaluates_alike_factorial : ∃ t p, Tree.ofTokens
      ([.symbol .letKw, .symbol .recKw, .identifier "f", .identifier "n", .symbol .equals,
        .identifier "n", .symbol .eqKw, .integer "0", .symbol .arrow, .integer "1", .symbol .bar,
        .identifier "n", .symbol .star, .identifier "f", .symbol .lparen, .identifier "n",
        .symbol .minus, .integer "1", .symbol .rparen, .symbol .withinKw, .identifier "g",
        .symbol .equals, .identifier "f", .symbol .inKw, .identifier "g", .integer "3",
        .symbol .endOfInput].map fun l => { lexeme := l, span := ⟨0, 0⟩, line := 1 }) = .ok t ∧
    (Arena.ofTree t).program = .ok p ∧ t.AvoidsConc ∧
    p.arena.rootTree? = some t.standard ∧
      ∃ T : Tree Numbered, T.map Numbered.label = t ∧ ∀ limit,
        Direct.Agrees Direct.Same (Direct.evaluate limit T) (t.standard.numbered.evaluate limit) ∧
        (Direct.evaluate limit T).shown = (t.standard.numbered.evaluate limit).shown := by
  generalize htokens : List.map _ _ = tokens
  have hok : ((Tree.ofTokens tokens).toOption.any fun t =>
      (Arena.ofTree t).program.isOk && decide t.AvoidsConc) = true := by
    subst htokens
    decide +kernel
  obtain ⟨t, p, h, hp, hconc⟩ := Program.exists_of_tokens hok
  exact ⟨t, p, h, hp, hconc, standard_evaluates_alike h hp hconc⟩

end Rpal.Tree
