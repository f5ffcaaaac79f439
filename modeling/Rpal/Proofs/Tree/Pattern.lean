import Rpal.Proofs.Tree.Core

/-!
# The patterns of definitions

What a definition binds, read off the tree that the parser builds. Definitions that hold at the
same time bind one list of all their patterns. When one of these is a list of names already, the
list is nested, and no function can bind it.

## Key results

- `IsSource.bindsParameters_iff`: the lambdas of the canonical form all bind parameters as the
  parser builds them exactly if no definition binds a nested list
-/

namespace Rpal.Tree

variable {α : Type}

/-! ### Subtrees -/

mutual

/-- The subtrees of a tree, the tree itself included. -/
def subtrees : Tree α → List (Tree α)
  | node a ts => node a ts :: subtreesAll ts

/-- The subtrees of a list of trees. -/
def subtreesAll : List (Tree α) → List (Tree α)
  | [] => []
  | t :: ts => t.subtrees ++ subtreesAll ts

end

/-- A subtree of some trees is a subtree of one of them. -/
theorem mem_subtreesAll {s : Tree α} {ts : List (Tree α)} :
    s ∈ subtreesAll ts ↔ ∃ t ∈ ts, s ∈ t.subtrees := by
  induction ts with
  | nil => simp [subtreesAll]
  | cons t ts ih => simp [subtreesAll, ih]

/-- What holds of all subtrees holds of the tree and of all subtrees below it. -/
theorem forall_mem_subtrees {a : α} {ts : List (Tree α)} {P : Tree α → Prop} :
    (∀ s ∈ (node a ts).subtrees, P s) ↔ P (node a ts) ∧ ∀ t ∈ ts, ∀ s ∈ t.subtrees, P s := by
  simp only [subtrees, List.forall_mem_cons, mem_subtreesAll]
  constructor
  · rintro ⟨hroot, hbelow⟩
    exact ⟨hroot, fun t ht s hs => hbelow s ⟨t, ht, hs⟩⟩
  · rintro ⟨hroot, hbelow⟩
    refine ⟨hroot, fun s hs => ?_⟩
    obtain ⟨t, ht, hs⟩ := hs
    exact hbelow t ht s hs

/-! ### Patterns -/

mutual

/-- The pattern that a definition binds: the left side of an equation or the name of a function;
    the inner pattern of a recursive definition or of one within another; a list of all patterns of
    definitions that hold at the same time. -/
def pattern : Tree Label → Tree Label
  | node l ts =>
    match l.kind, ts with
    | .recursive, [d] => d.pattern
    | .within, [_, d] => d.pattern
    | .simultaneous, ds => node (l.beside .names) (patternAll ds)
    | _, x :: _ => x
    | _, [] => leaf l

/-- The patterns of a list of definitions. -/
def patternAll : List (Tree Label) → List (Tree Label)
  | [] => []
  | d :: ds => d.pattern :: patternAll ds

end

/-- The patterns of definitions are the patterns of each. -/
theorem patternAll_eq_map (ds : List (Tree Label)) : patternAll ds = ds.map pattern := by
  induction ds with
  | nil => rfl
  | cons d ds ih => rw [patternAll, ih, List.map_cons]

section

variable {l : Label} {d d₁ d₂ x e f : Tree Label} {ts ds : List (Tree Label)}

/-- The pattern of an equation is its left side. -/
theorem pattern_equation (hl : l.kind = .equation) : (node l [x, e]).pattern = x := by
  unfold pattern
  simp only [hl]

/-- The pattern of a function definition is its name. -/
theorem pattern_functionForm (hl : l.kind = .functionForm) : (node l (f :: ts)).pattern = f := by
  unfold pattern
  simp only [hl]

/-- The pattern of `rec` is the one of its definition. -/
theorem pattern_recursive (hl : l.kind = .recursive) : (node l [d]).pattern = d.pattern := by
  simp only [pattern, hl]

/-- The pattern of `within` is the one of its second definition. -/
theorem pattern_within (hl : l.kind = .within) : (node l [d₁, d₂]).pattern = d₂.pattern := by
  simp only [pattern, hl]

/-- The pattern of `and` is the list of those of its operands. -/
theorem pattern_simultaneous (hl : l.kind = .simultaneous) :
    (node l ds).pattern = node (l.beside .names) (ds.map pattern) := by
  simp only [pattern, hl, patternAll_eq_map]

/-! ### Nested lists -/

/-- None of the definitions that hold at the same time binds a list of names by itself. -/
def IsFlat (t : Tree Label) : Prop :=
  ∀ s ∈ t.subtrees, s.label.kind = .simultaneous → ∀ d ∈ s.children, d.pattern.label.kind ≠ .names

/-- Every lambda binds a name, a list of names, or nothing. -/
def BindsParameters (t : Tree Label) : Prop :=
  ∀ s ∈ t.subtrees, s.label.kind = .lambda → ∀ x ∈ s.children.head?, IsBindable x

/-- Constructs other than `and` are flat if their children are. -/
theorem isFlat_node (hl : l.kind ≠ .simultaneous) : (node l ts).IsFlat ↔ ∀ t ∈ ts, t.IsFlat := by
  rw [IsFlat, forall_mem_subtrees]
  exact and_iff_right fun h => absurd h hl

/-- A flat `and` has no operand whose pattern is a list of names. -/
theorem isFlat_simultaneous (hl : l.kind = .simultaneous) : (node l ds).IsFlat ↔
    (∀ d ∈ ds, d.pattern.label.kind ≠ .names) ∧ ∀ d ∈ ds, d.IsFlat := by
  rw [IsFlat, forall_mem_subtrees]
  exact and_congr_left' ⟨fun h => h hl, fun h _ => h⟩

/-- Constructs other than functions bind parameters if their children do. -/
theorem bindsParameters_node (hl : l.kind ≠ .lambda) :
    (node l ts).BindsParameters ↔ ∀ t ∈ ts, t.BindsParameters := by
  rw [BindsParameters, forall_mem_subtrees]
  exact and_iff_right fun h => absurd h hl

/-- A leaf binds nothing. -/
theorem bindsParameters_leaf (hl : l.kind ≠ .lambda) : (leaf l).BindsParameters :=
  (bindsParameters_node hl).2 (List.forall_mem_nil _)

/-- There is no lambda in what a lambda binds. -/
theorem IsNaming.bindsParameters (h : IsNaming x) : x.BindsParameters := by
  induction h with
  | name h =>
    obtain ⟨l, hl, rfl⟩ := h
    exact bindsParameters_leaf (by rw [hl]; decide)
  | names hl _ ih => exact (bindsParameters_node (by rw [hl]; decide)).2 ih

/-- There is no function in a formal parameter. -/
theorem IsFormal.bindsParameters (h : IsFormal x) : x.BindsParameters := by
  cases h with
  | naming h => exact h.bindsParameters
  | unit hl => exact bindsParameters_leaf (by rw [hl]; decide)

/-- A function binds parameters if its own parameter can be bound, and its body binds parameters. -/
theorem bindsParameters_lambda (hl : l.kind = .lambda) (hx : IsFormal x) :
    (node l [x, e]).BindsParameters ↔ IsBindable x ∧ e.BindsParameters := by
  rw [BindsParameters, forall_mem_subtrees]
  constructor
  · rintro ⟨hroot, hbelow⟩
    exact ⟨hroot hl x rfl, hbelow e (by simp)⟩
  · rintro ⟨hbindable, he⟩
    refine ⟨fun _ y hy => Option.some.inj hy ▸ hbindable, ?_⟩
    simp only [List.forall_mem_cons]
    exact ⟨hx.bindsParameters, he, List.forall_mem_nil _⟩

/-- What the parser makes lambdas bind can be bound only if it is a parameter. -/
theorem IsBound.isBindable_iff (h : IsBound x) : IsBindable x ↔ IsParameter x := by
  refine ⟨fun hx => ?_, IsParameter.isBindable⟩
  cases h with
  | unit hl => exact .unit hl
  | binder h =>
    cases h with
    | name h => exact .pattern (.name h)
    | names hl hlen _ =>
      cases hx with
      | name hx =>
        obtain ⟨l', hl', heq⟩ := hx
        cases heq
        cases hl.symm.trans hl'
      | names _ hts => exact .pattern (.names hl hlen hts)
      | unit hl' => cases hl.symm.trans hl'

/-- A list of names is the only pattern that cannot be bound. -/
theorem IsBinder.isBindable_iff (h : IsBinder x) : IsBindable x ↔ IsPattern x := by
  refine (IsBound.binder h).isBindable_iff.trans ⟨fun hx => ?_, .pattern⟩
  cases hx with
  | pattern hx => exact hx
  | unit hl =>
    cases h with
    | name h =>
      obtain ⟨l, hl', heq⟩ := h
      cases heq
      cases hl.symm.trans hl'
    | names hl' => cases hl.symm.trans hl'

/-- What is bound and is no list is a name. -/
theorem IsNaming.isName_iff (h : IsNaming x) : IsName x ↔ x.label.kind ≠ .names := by
  constructor
  · rintro ⟨l, hl, rfl⟩
    change l.kind ≠ .names
    rw [hl]
    decide
  · intro hx
    cases h with
    | name h => exact h
    | names hl => exact absurd hl hx

/-- A list can be bound if all its members are names. -/
theorem isBindable_names_iff (hl : l.kind = .names) :
    IsBindable (node l ts) ↔ ∀ t ∈ ts, IsName t := by
  refine ⟨fun h => ?_, .names hl⟩
  cases h with
  | name h =>
    obtain ⟨l', hl', heq⟩ := h
    cases heq
    cases hl.symm.trans hl'
  | names _ hts => exact hts
  | unit hl' => cases hl.symm.trans hl'

/-- A list of what can be bound is a parameter if all its members are names. -/
theorem isPattern_names_iff (hl : l.kind = .names) (hlen : 2 ≤ ts.length) :
    IsPattern (node l ts) ↔ ∀ t ∈ ts, IsName t := by
  refine ⟨fun h => ?_, .names hl hlen⟩
  cases h with
  | name h =>
    obtain ⟨l', hl', heq⟩ := h
    cases heq
    cases hl.symm.trans hl'
  | names _ _ hts => exact hts

/-- There are no definitions in a parameter. -/
theorem IsParameter.isFlat (h : IsParameter x) : x.IsFlat := by
  have hname {t : Tree Label} (ht : IsName t) : t.IsFlat := by
    obtain ⟨l, hl, rfl⟩ := ht
    exact (isFlat_node (by rw [hl]; decide)).2 (List.forall_mem_nil _)
  cases h with
  | pattern h =>
    cases h with
    | name h => exact hname h
    | names hl _ hts => exact (isFlat_node (by rw [hl]; decide)).2 fun t ht => hname (hts t ht)
  | unit hl => exact (isFlat_node (by rw [hl]; decide)).2 (List.forall_mem_nil _)

end

/-! ### Canonical form -/

/-- Nested lambdas over parameters. -/
theorem bindsParameters_nest {vs : List (Tree Label)} {e : Tree Label}
    (hvs : ∀ v ∈ vs, IsParameter v) : (nest (vs ++ [e])).BindsParameters ↔ e.BindsParameters := by
  induction vs with
  | nil => exact Iff.rfl
  | cons v vs ih =>
    obtain ⟨hv, hvs⟩ := List.forall_mem_cons.1 hvs
    have hnest : nest (v :: vs ++ [e]) = node (v.label.beside .lambda) [v, nest (vs ++ [e])] := by
      cases vs <;> rfl
    rw [hnest, bindsParameters_lambda rfl hv.isBound.isFormal, ih hvs]
    exact and_iff_right hv.isBindable

/-- What the canonical form of a part says about nested lists in it. -/
def Role.Flattens : Role → Tree Label → Prop
  | expression, t => t.standard.BindsParameters ↔ t.IsFlat
  | definition, t => ∃ l e, t.standard = node l [t.pattern, e] ∧ l.kind = .equation ∧
    IsBinder t.pattern ∧ ((IsPattern t.pattern ∧ e.BindsParameters) ↔ t.IsFlat)

/-- An application binds parameters if both of its sides do. -/
theorem bindsParameters_gamma {l : Label} {f e : Tree Label} (hl : l.kind = .gamma) :
    (node l [f, e]).BindsParameters ↔ f.BindsParameters ∧ e.BindsParameters := by
  rw [bindsParameters_node (by rw [hl]; decide), List.forall_mem_cons, List.forall_mem_singleton]

/-- A lambda for a definition binds the definition's pattern around an expression. -/
theorem bindsParameters_application {l l' : Label} {x e₁ e₂ : Tree Label} (hl : l.kind = .gamma)
    (hl' : l'.kind = .lambda) (hx : IsBinder x) :
    (node l [node l' [x, e₂], e₁]).BindsParameters ↔
      (IsPattern x ∧ e₁.BindsParameters) ∧ e₂.BindsParameters := by
  rw [bindsParameters_gamma hl, bindsParameters_lambda hl' (.naming hx.isNaming), hx.isBindable_iff]
  tauto

/-- The two sides of the equations that definitions become. -/
theorem sides_of_flattens {ds : List (Tree Label)} (h : ∀ d ∈ ds, Role.definition.Flattens d) :
    ∃ sides : List (Tree Label × Tree Label), (ds.map standard).filterMap sides? = sides ∧
      sides.map Prod.fst = ds.map pattern ∧
      ((∀ d ∈ ds, IsPattern d.pattern) ∧ (∀ e ∈ sides.map Prod.snd, e.BindsParameters) ↔
        ∀ d ∈ ds, d.IsFlat) := by
  induction ds with
  | nil => exact ⟨[], rfl, rfl, by simp⟩
  | cons d ds ih =>
    obtain ⟨hd, hds⟩ := List.forall_mem_cons.1 h
    obtain ⟨l, e, hstandard, hl, -, hflat⟩ := hd
    obtain ⟨sides, heq, hfst, hall⟩ := ih hds
    refine ⟨(d.pattern, e) :: sides, ?_, by rw [List.map_cons, List.map_cons, hfst], ?_⟩
    · rw [List.map_cons, hstandard, List.filterMap_cons_some (b := (d.pattern, e)), heq]
      simp only [sides?, hl, if_true]
    · simp only [List.forall_mem_cons, List.map_cons, ← hflat, ← hall]
      tauto

/-- A definition binds a list of names where others hold at the same time, somewhere in a part of
    a program, exactly if some lambda of the part's canonical form binds a nested list. -/
theorem IsSource.flattens {r : Role} {t : Tree Label} (h : IsSource r t) : r.Flattens t := by
  induction h with
  | @plain l ts htakes _ ih =>
    have hrule := hasRule_of_takes htakes
    rw [Role.Flattens, standard_of_hasRule_eq_false hrule]
    rw [bindsParameters_node (fun hl => by rw [hl] at hrule; cases hrule)]
    rw [isFlat_node (fun hl => by rw [hl] at hrule; cases hrule), List.forall_mem_map]
    exact forall₂_congr ih
  | @atName l e₁ n e₂ hl _ hn _ ih₁ ih₂ =>
    have hname : n.BindsParameters := (IsNaming.name hn).bindsParameters
    have hflat : n.IsFlat := (IsParameter.pattern (.name hn)).isFlat
    simp only [Role.Flattens] at ih₁ ih₂ ⊢
    rw [standard_atName hl hn, bindsParameters_gamma rfl, bindsParameters_gamma rfl, ih₁, ih₂,
      isFlat_node (by rw [hl]; decide)]
    simp [hname, hflat]
  | letIn hl _ _ ihd ihe =>
    obtain ⟨eq, e₁, hd, -, hx, ihd⟩ := ihd
    simp only [Role.Flattens] at ihe ⊢
    rw [standard_letIn hl hd, bindsParameters_application rfl rfl hx, ihd, ihe,
      isFlat_node (by rw [hl]; decide)]
    simp
  | whereIn hl _ _ ihe ihd =>
    obtain ⟨eq, e₁, hd, -, hx, ihd⟩ := ihd
    simp only [Role.Flattens] at ihe ⊢
    rw [standard_whereIn hl hd, bindsParameters_application rfl rfl hx, ihd, ihe,
      isFlat_node (by rw [hl]; decide)]
    simp [and_comm]
  | lambda hl hne hvs _ ih =>
    obtain ⟨v, more, rfl⟩ := List.exists_cons_of_ne_nil hne
    obtain ⟨hv, hmore⟩ := List.forall_mem_cons.1 hvs
    -- there are no definitions in parameters, so that only the body counts
    have hflat := fun v hv => (hvs v hv).isFlat
    simp only [Role.Flattens] at ih ⊢
    rw [standard_lambda hl hvs, bindsParameters_lambda hl hv.isBound.isFormal,
      bindsParameters_nest hmore,
      ih, isFlat_node (by rw [hl]; decide), List.forall_mem_append, List.forall_mem_singleton]
    exact and_congr_left' (iff_of_true hv.isBindable hflat)
  | @equation l x e hl hx _ ih =>
    have hflat : x.IsFlat := (IsParameter.pattern hx).isFlat
    simp only [Role.Flattens] at ih ⊢
    rw [standard_of_hasRule_eq_false (by rw [hl]; rfl), pattern_equation hl]
    refine ⟨l, e.standard, by rw [List.map_cons, hx.standard]; rfl, hl, hx.isBinder, ?_⟩
    rw [isFlat_node (by rw [hl]; decide), ih]
    simp [hx, hflat]
  | @functionForm l f vs e hl hf hne hvs _ ih =>
    have hflat := fun v hv => (hvs v hv).isFlat
    have hname : f.IsFlat := (IsParameter.pattern (.name hf)).isFlat
    simp only [Role.Flattens] at ih ⊢
    rw [pattern_functionForm hl]
    refine ⟨_, _, standard_functionForm hl hf hne hvs, rfl, .name hf, ?_⟩
    rw [bindsParameters_nest hvs, ih, isFlat_node (by rw [hl]; decide), List.forall_mem_cons,
      List.forall_mem_append, List.forall_mem_singleton]
    exact and_congr (iff_of_true (.name hf) hname) (and_iff_right hflat).symm
  | within hl _ _ ih₁ ih₂ =>
    obtain ⟨eq₁, e₁, hd₁, -, hx₁, ih₁⟩ := ih₁
    obtain ⟨eq₂, e₂, hd₂, -, hx₂, ih₂⟩ := ih₂
    rw [Role.Flattens, pattern_within hl]
    refine ⟨_, _, standard_within hl hd₁ hd₂, rfl, hx₂, ?_⟩
    rw [bindsParameters_application rfl rfl hx₁, isFlat_node (by rw [hl]; decide),
      List.forall_mem_cons, List.forall_mem_singleton, ← ih₁, ← ih₂]
    tauto
  | @simultaneous l ds hl hlen _ ih =>
    obtain ⟨sides, hsides, hfst, hall⟩ := sides_of_flattens ih
    have hbinder : ∀ d ∈ ds, IsBinder d.pattern := by
      intro d hd
      obtain ⟨-, -, -, -, hx, -⟩ := ih d hd
      exact hx
    have hlength : 2 ≤ (ds.map pattern).length := by rwa [List.length_map]
    rw [Role.Flattens, pattern_simultaneous hl]
    refine ⟨l.turned .equation, node (l.beside .tau) (sides.map Prod.snd), ?_, rfl,
      .names rfl hlength (List.forall_mem_map.2 hbinder), ?_⟩
    · rw [standard_simultaneous hl hsides, hfst]
    · rw [isPattern_names_iff rfl hlength, bindsParameters_node (by simp), isFlat_simultaneous hl]
      rw [List.forall_mem_map, ← hall]
      -- here a pattern that is a list makes the new one a nested list
      have hnames : (∀ d ∈ ds, IsName d.pattern) ↔ ∀ d ∈ ds, d.pattern.label.kind ≠ .names :=
        forall₂_congr fun d hd => (hbinder d hd).isNaming.isName_iff
      have hpatterns : (∀ d ∈ ds, IsName d.pattern) → ∀ d ∈ ds, IsPattern d.pattern :=
        fun h d hd => .name (h d hd)
      tauto
  | @recursive l d hl _ ih =>
    obtain ⟨eq, e, hd, -, hx, ih⟩ := ih
    have hystar : (leaf (l.beside .ystar)).BindsParameters := bindsParameters_leaf (by simp)
    rw [Role.Flattens, pattern_recursive hl]
    refine ⟨_, _, standard_recursive hl hd, rfl, hx, ?_⟩
    rw [bindsParameters_gamma rfl, bindsParameters_lambda rfl (.naming hx.isNaming), hx.isBindable_iff,
      isFlat_node (by rw [hl]; decide), List.forall_mem_singleton, ← ih]
    tauto

/-- The lambdas of an expression's canonical form all bind parameters as the parser builds them
    exactly if no definition binds a nested list of names. -/
theorem IsSource.bindsParameters_iff {t : Tree Label} (h : IsSource .expression t) :
    t.standard.BindsParameters ↔ t.IsFlat :=
  h.flattens

end Rpal.Tree
