import Rpal.Proofs.Tree.Standard

/-!
# Well-formed trees

The rules of standardization and the machine take more than the trees that the parser builds: one
definition can hold at the same time as no other, a list can have one name, a tuple one element or
none. A tree is well-formed if every rule finds what it is for when the children of its node have their
canonical form. What the machine evaluates are the trees of the core language.

## Key results

- `IsSource.isWellFormed`: the parts of a program are well-formed
- `IsSource.isExpression`: the expressions that the parser builds are expressions
-/

namespace Rpal

/-- The machine reduces the construct with `n` operands. -/
def Kind.admits : Kind → Nat → Bool
  | .ystar, n => n = 0
  | .tau, _ => true
  | kind, n => kind.takes n

/-- A number of children that a construct takes is one that it admits. -/
theorem Kind.admits_of_takes {kind : Kind} {n : Nat} (h : kind.takes n = true) :
    kind.admits n = true := by
  cases kind <;> first | exact h | rfl | cases h

namespace Tree

/-! ### Names -/

/-- The tree is a name, or a list of such trees. -/
inductive IsNaming : Tree Label → Prop where
  | name {t} : IsName t → IsNaming t
  | names {l : Label} {ts} : l.kind = .names → (∀ t ∈ ts, IsNaming t) → IsNaming (.node l ts)

/-- The tree is the first child of a lambda. -/
inductive IsFormal : Tree Label → Prop where
  | naming {t} : IsNaming t → IsFormal t
  | unit {l : Label} : l.kind = .unit → IsFormal (.leaf l)

/-- A function can bind what the tree names: one name, a list of names, or nothing. -/
inductive IsBindable : Tree Label → Prop where
  | name {t} : IsName t → IsBindable t
  | names {l : Label} {ts} : l.kind = .names → (∀ t ∈ ts, IsName t) → IsBindable (.node l ts)
  | unit {l : Label} : l.kind = .unit → IsBindable (.leaf l)

/-- A list of names in canonical form is one of any length. -/
theorem IsBinder.isNaming {t : Tree Label} (h : IsBinder t) : IsNaming t := by
  induction h with
  | name h => exact .name h
  | names hl _ _ ih => exact .names hl ih

/-- What a lambda in canonical form binds is what a lambda can have as its first child. -/
theorem IsBound.isFormal {t : Tree Label} (h : IsBound t) : IsFormal t := by
  cases h with
  | binder h => exact .naming h.isNaming
  | unit hl => exact .unit hl

/-- A parameter can be bound. -/
theorem IsParameter.isBindable {t : Tree Label} (h : IsParameter t) : IsBindable t := by
  cases h with
  | pattern h =>
    cases h with
    | name h => exact .name h
    | names hl _ hts => exact .names hl hts
  | unit hl => exact .unit hl

/-- Names stay as they are. -/
theorem IsNaming.standard {t : Tree Label} (h : IsNaming t) : t.standard = t := by
  induction h with
  | name h => exact h.standard
  | names hl _ ih =>
    rw [standard_of_hasRule_eq_false (by rw [hl]; rfl), List.map_congr_left ih, List.map_id']

/-- No rule is for a name or a list of names. -/
theorem IsNaming.hasRule_eq_false {l : Label} {ts : List (Tree Label)} (h : IsNaming (.node l ts)) :
    l.kind.hasRule = false := by
  cases h with
  | name h =>
    obtain ⟨l', hl, heq⟩ := h
    cases heq
    rw [hl]
    rfl
  | names hl _ =>
    rw [hl]
    rfl

/-- There are only names below a list of names. -/
theorem IsNaming.children {l : Label} {ts : List (Tree Label)} (h : IsNaming (.node l ts)) :
    ∀ t ∈ ts, IsNaming t := by
  cases h with
  | name h =>
    obtain ⟨l', -, heq⟩ := h
    cases heq
    exact List.forall_mem_nil _
  | names _ hts => exact hts

/-! ### Rules that fit -/

/-- The tree is an equation with two sides. -/
inductive IsEquated : Tree Label → Prop where
  | mk {l : Label} {x e} : l.kind = .equation → IsEquated (.node l [x, e])

/-- An equated tree is an equation of two sides. -/
theorem IsEquated.exists_eq {t : Tree Label} (h : IsEquated t) :
    ∃ l x e, t = .node l [x, e] ∧ l.kind = .equation := by
  cases h with
  | mk hl => exact ⟨_, _, _, rfl, hl⟩

/-- An equation is equated. -/
theorem IsEquation.isEquated {t : Tree Label} (h : IsEquation t) : IsEquated t := by
  cases h with
  | mk hl _ _ => exact .mk hl

/-- The rule for the construct of the label finds what it is for among the trees. The left side of a
    recursive definition is copied, and must not be more than names. -/
inductive Fits : Label → List (Tree Label) → Prop where
  | noRule {l : Label} {ts} : l.kind.hasRule = false → Fits l ts
  | letIn {l : Label} {d e} : l.kind = .letIn → IsEquated d → Fits l [d, e]
  | whereIn {l : Label} {d e} : l.kind = .whereIn → IsEquated d → Fits l [e, d]
  | functionForm {l : Label} {p v e ts} : l.kind = .functionForm → Fits l (p :: v :: e :: ts)
  | lambda {l : Label} {v e ts} : l.kind = .lambda → Fits l (v :: e :: ts)
  | atName {l : Label} {e₁ n e₂} : l.kind = .atName → Fits l [e₁, n, e₂]
  | within {l : Label} {d₁ d₂} : l.kind = .within → IsEquated d₁ → IsEquated d₂ → Fits l [d₁, d₂]
  | simultaneous {l : Label} {ds} : l.kind = .simultaneous → ds ≠ [] → (∀ d ∈ ds, IsEquated d) →
      Fits l ds
  | recursive {l eq : Label} {x e} : l.kind = .recursive → eq.kind = .equation → IsNaming x →
      Fits l [.node eq [x, e]]

/-- Every node that is no list of names has children that its rule fits, in their canonical form. -/
inductive IsWellFormed : Tree Label → Prop where
  | names {l : Label} {ts} : l.kind = .names → (∀ t ∈ ts, IsNaming t) → IsWellFormed (.node l ts)
  | node {l : Label} {ts} : l.kind ≠ .names → (∀ t ∈ ts, IsWellFormed t) → Fits l (ts.map standard) →
      IsWellFormed (.node l ts)

/-- A single name is well-formed. -/
theorem IsName.isWellFormed {t : Tree Label} (h : IsName t) : IsWellFormed t := by
  obtain ⟨l, hl, rfl⟩ := h
  exact .node (by rw [hl]; decide) (List.forall_mem_nil _) (.noRule (by rw [hl]; rfl))

/-- Names have the shape that the rules ask for. -/
theorem IsNaming.isWellFormed {t : Tree Label} (h : IsNaming t) : IsWellFormed t := by
  cases h with
  | name h => exact h.isWellFormed
  | names hl hts => exact .names hl hts

/-- Parameters are well-formed. -/
theorem IsParameter.isWellFormed {t : Tree Label} (h : IsParameter t) : IsWellFormed t := by
  cases h with
  | pattern h => exact h.isBinder.isNaming.isWellFormed
  | unit hl =>
    exact .node (by rw [hl]; decide) (List.forall_mem_nil _) (.noRule (by rw [hl]; rfl))

/-- The children of a well-formed tree are well-formed. -/
theorem IsWellFormed.children {l : Label} {ts : List (Tree Label)} (h : IsWellFormed (.node l ts)) :
    ∀ t ∈ ts, IsWellFormed t := by
  cases h with
  | names _ hts => exact fun t ht => (hts t ht).isWellFormed
  | node _ hts _ => exact hts

/-- There are only names in a list of names. -/
theorem IsWellFormed.names_children {l : Label} {ts : List (Tree Label)} (h : IsWellFormed (.node l ts))
    (hl : l.kind = .names) : ∀ t ∈ ts, IsNaming t := by
  cases h with
  | names _ hts => exact hts
  | node hne _ _ => exact absurd hl hne

/-- The rule for a well-formed tree fits its children in canonical form. -/
theorem IsWellFormed.fits {l : Label} {ts : List (Tree Label)} (h : IsWellFormed (.node l ts)) :
    Fits l (ts.map standard) := by
  cases h with
  | names hl _ => exact .noRule (by rw [hl]; rfl)
  | node _ _ hfits => exact hfits

/-- A list of parameters with something behind them has a first and a second member. -/
theorem fits_parameters {vs : List (Tree Label)} (hne : vs ≠ []) (e : Tree Label) :
    ∃ v w more, vs ++ [e] = v :: w :: more := by
  obtain ⟨v, vs, rfl⟩ := List.exists_cons_of_ne_nil hne
  cases vs with
  | nil => exact ⟨v, e, [], rfl⟩
  | cons w ws => exact ⟨v, w, ws ++ [e], rfl⟩

/-- Expressions and definitions that the parser builds are well-formed. -/
theorem IsSource.isWellFormed {r : Role} {t : Tree Label} (h : IsSource r t) : IsWellFormed t := by
  have hrole {l : Label} {kind : Kind} (hl : l.kind = kind) (hkind : kind ≠ .names) :
      l.kind ≠ .names := hl ▸ hkind
  induction h with
  | plain htakes _ ih =>
    refine .node ?_ ih (.noRule (hasRule_of_takes htakes))
    intro hl
    rw [hl] at htakes
    cases htakes
  | atName hl _ hn _ ih₁ ih₂ =>
    refine .node (hrole hl (by decide)) ?_ (.atName hl)
    -- the operands are well-formed, and the rule finds what it is for in their canonical forms
    simp only [List.forall_mem_cons]
    exact ⟨ih₁, hn.isWellFormed, ih₂, List.forall_mem_nil _⟩
  | letIn hl hd _ ihd ihe =>
    refine .node (hrole hl (by decide)) ?_ (.letIn hl (IsEquation.isEquated hd.standard))
    simp only [List.forall_mem_cons]
    exact ⟨ihd, ihe, List.forall_mem_nil _⟩
  | whereIn hl _ hd ihe ihd =>
    refine .node (hrole hl (by decide)) ?_ (.whereIn hl (IsEquation.isEquated hd.standard))
    simp only [List.forall_mem_cons]
    exact ⟨ihe, ihd, List.forall_mem_nil _⟩
  | @lambda l vs e hl hne hvs _ ih =>
    refine .node (hrole hl (by decide)) ?_ ?_
    · exact List.forall_mem_append.2 ⟨fun v hv => (hvs v hv).isWellFormed,
        List.forall_mem_singleton.2 ih⟩
    · obtain ⟨v, w, more, heq⟩ := fits_parameters hne e
      rw [heq]
      exact .lambda hl
  | equation hl hx _ ih =>
    refine .node (hrole hl (by decide)) ?_ (.noRule (by rw [hl]; rfl))
    simp only [List.forall_mem_cons]
    exact ⟨hx.isBinder.isNaming.isWellFormed, ih, List.forall_mem_nil _⟩
  | @functionForm l f vs e hl hf hne hvs _ ih =>
    refine .node (hrole hl (by decide)) ?_ ?_
    · refine List.forall_mem_cons.2 ⟨hf.isWellFormed, ?_⟩
      exact List.forall_mem_append.2 ⟨fun v hv => (hvs v hv).isWellFormed,
        List.forall_mem_singleton.2 ih⟩
    · obtain ⟨v, w, more, heq⟩ := fits_parameters hne e
      -- with a parameter in front of the body there are two operands at least
      rw [heq]
      exact .functionForm hl
  | within hl h₁ h₂ ih₁ ih₂ =>
    refine .node (hrole hl (by decide)) ?_
      (.within hl (IsEquation.isEquated h₁.standard) (IsEquation.isEquated h₂.standard))
    simp only [List.forall_mem_cons]
    exact ⟨ih₁, ih₂, List.forall_mem_nil _⟩
  | simultaneous hl hlen hds ih =>
    refine .node (hrole hl (by decide)) ih (.simultaneous hl ?_ ?_)
    · rintro heq
      rw [List.map_eq_nil_iff.1 heq] at hlen
      simp at hlen
    · exact List.forall_mem_map.2 fun d hd => IsEquation.isEquated (hds d hd).standard
  | recursive hl hd ih =>
    refine .node (hrole hl (by decide)) (List.forall_mem_singleton.2 ih) ?_
    obtain ⟨eq, x, e, heq, hkind, hx, -⟩ := IsEquation.exists_eq hd.standard
    rw [List.map_singleton, heq]
    exact .recursive hl hkind hx.isNaming

/-- The tree is a part of a program as the parser builds it, of any role. -/
def IsPart (t : Tree Label) : Prop :=
  (∃ r, IsSource r t) ∨ IsParameter t

/-- The parts of a program are well-formed. -/
theorem IsPart.isWellFormed {t : Tree Label} (h : IsPart t) : IsWellFormed t := by
  rcases h with ⟨r, h⟩ | h
  · exact h.isWellFormed
  · exact h.isWellFormed

/-! ### The core language -/

/-- The tree is an expression of the core language: every lambda has something to bind and a body,
    and every other construct has as many operands as it is reduced with. -/
inductive IsCore : Tree Label → Prop where
  | plain {l : Label} {ts} : l.kind.admits ts.length → (∀ t ∈ ts, IsCore t) → IsCore (.node l ts)
  | lambda {l : Label} {x e} : l.kind = .lambda → IsFormal x → IsCore e → IsCore (.node l [x, e])

/-- What is in canonical form is an expression of the core language. -/
theorem IsStandard.isCore {t : Tree Label} (h : IsStandard t) : IsCore t := by
  induction h with
  | plain htakes _ ih => exact .plain (Kind.admits_of_takes htakes) ih
  | lambda hl hx _ ih => exact .lambda hl hx.isFormal ih
  | fixpoint hl hly hll hx _ ih =>
    refine .plain (by rw [hl]; rfl) ?_
    rw [List.forall_mem_cons, List.forall_mem_singleton]
    exact ⟨.plain (by rw [hly]; rfl) (List.forall_mem_nil _), .lambda hll hx.isFormal ih⟩

/-- The tree is an expression of the language, possibly one that has no concrete form: the rules
    bring it into the core language. -/
structure IsExpression (t : Tree Label) : Prop where
  wellFormed : IsWellFormed t
  core : IsCore t.standard

/-- The expressions that the parser builds are expressions. -/
theorem IsSource.isExpression {t : Tree Label} (h : IsSource .expression t) : t.IsExpression :=
  ⟨h.isWellFormed, IsStandard.isCore h.standard⟩

end Tree

end Rpal
