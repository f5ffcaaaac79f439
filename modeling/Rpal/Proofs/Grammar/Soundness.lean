import Rpal.Proofs.Grammar.Reading

/-!
# Soundness of the parser

What the parser takes is a sentence of the grammar, and what it returns is the sentence's tree.
There is one lemma per production. The three productions that occur within themselves are an
assumption, `IsSound self`, until `isSound_nested` ties the knot.

## Key results

- `isSound_nested`: every goal is sound at every depth
- `exists_derives`: what a goal reads has sentences
-/

namespace Rpal.Grammar

open Rpal.Parser (Consumes Enters Goal headType)

/-- The nonterminal that a goal of the parser stands for. -/
def ofGoal : Goal → Nonterminal
  | .expression => .expression
  | .branch => .conditional
  | .definition => .definition

/-- What the parsers for the goals take are sentences, and what they return are their trees. -/
def IsSound (self : Goal → Parser (Tree Label)) : Prop :=
  ∀ g, Consumes (self g) (Derives (ofGoal g))

/-! ### Lists of phrases -/

/-- The items of a list are behind separators of one type, and in the relation `R`. -/
def AreItems (separator : Symbol) (R : List Token → Tree Label → Prop)
    (items : List (Token × Phrase)) : Prop :=
  (∀ i ∈ items, i.1.type = .symbol separator) ∧ ∀ i ∈ items, R i.2.tokens i.2.tree

/-- No tokens are no items. -/
theorem AreItems.nil {separator : Symbol} {R : List Token → Tree Label → Prop} :
    AreItems separator R [] :=
  ⟨List.forall_mem_nil _, List.forall_mem_nil _⟩

/-- A list behind separators takes its items. -/
theorem consumes_separated {separator : Symbol} (hsep : separator ≠ .endOfInput)
    {item : Parser (Tree Label)} {R : List Token → Tree Label → Prop} (hitem : Consumes item R)
    (first : Tree Label) :
    Consumes (Parser.separated separator item first) fun ts more =>
      ∃ items, AreItems separator R items ∧ ts = separated items ∧ more = trees items := by
  -- the loop collects the trees with the last one first
  have hloop : Consumes (Parser.iterate (Parser.separatedStep separator item first) [])
      fun ts behind =>
        ∃ items, AreItems separator R items ∧ ts = separated items ∧
          behind = (trees items).reverse := by
    refine Consumes.iterate (R := fun ts behind => ∃ items, AreItems separator R items ∧
      ts = separated items ∧ behind = (trees items).reverse) (fun us behind hus => ?_)
      [] ⟨[], .nil, rfl, rfl⟩
    refine (Consumes.accept? (by simpa using hsep)).bind fun vs o hvs => ?_
    cases o with
    | none =>
      obtain rfl := hvs
      exact .pure rfl
    | some k =>
      obtain ⟨rfl, hk⟩ := hvs
      obtain ⟨items, ⟨hseps, hitems⟩, rfl, rfl⟩ := hus
      refine (hitem.keepingFrom first _).bind fun ws t hws => .pure ⟨List.cons_ne_nil _ _, ?_⟩
      refine ⟨items ++ [(k, ⟨ws, t⟩)], ⟨?_, ?_⟩, ?_, ?_⟩
      · simpa [or_imp, forall_and, hk] using hseps
      · simpa [or_imp, forall_and, hws] using hitems
      · simp [separated]
      · simp [trees]
  rw [Parser.separated_eq]
  refine hloop.bind fun us behind hus => .pure ?_
  obtain ⟨items, hitems, rfl, rfl⟩ := hus
  exact ⟨items, hitems, by simp, by simp⟩

/-- A list of phrases takes the phrases. -/
theorem consumes_many {start : TokenSet} {item : Parser (Tree Label)}
    {R : List Token → Tree Label → Prop} (hitem : Enters item start R) (first : Tree Label) :
    Consumes (Parser.many start item first) fun ts more =>
      ∃ vs : List Phrase, (∀ v ∈ vs, R v.tokens v.tree) ∧ ts = joined vs ∧
        more = vs.map Phrase.tree := by
  -- the invariant of the loop is that the trees read so far stand in reverse order
  have hloop : Consumes (Parser.iterate (fun behind => do
      if ← Parser.startsWith start then
        return some ((← Parser.keepingFrom first behind item) :: behind)
      else
        return none) []) fun ts behind =>
      ∃ vs : List Phrase, (∀ v ∈ vs, R v.tokens v.tree) ∧ ts = joined vs ∧
        behind = (vs.map Phrase.tree).reverse := by
    refine Consumes.iterate (R := fun ts behind => ∃ vs : List Phrase,
      (∀ v ∈ vs, R v.tokens v.tree) ∧ ts = joined vs ∧ behind = (vs.map Phrase.tree).reverse)
      (fun us behind hus => ?_) [] ⟨[], List.forall_mem_nil _, rfl, rfl⟩
    obtain ⟨phrases, hphrases, rfl, rfl⟩ := hus
    have hitem' := hitem.keeping (first :: (phrases.map Phrase.tree).reverse.reverse)
    refine (hitem'.bind fun k ws t hws => .pure ?_).orElse rfl
    refine ⟨List.cons_ne_nil _ _, phrases ++ [⟨k :: ws, t⟩], ?_, ?_, ?_⟩
    · simpa [or_imp, forall_and, hws] using hphrases
    · simp [joined]
    · simp
  refine hloop.bind fun us behind hus => .pure ?_
  obtain ⟨phrases, hphrases, rfl, rfl⟩ := hus
  exact ⟨phrases, hphrases, by simp, by simp⟩

/-- A chain of operators that group from the left takes a phrase of its nonterminal. -/
theorem consumes_leftNested {n m : Nonterminal} (hm : n.alternative? = some m)
    {operand : Parser (Tree Label)} (hoperand : Consumes operand (Derives m))
    {us : List Token} {left : Tree Label} (hleft : Derives n us left) :
    Consumes (Parser.leftNested n.leftOperators operand left) fun vs t =>
      Derives n (us ++ vs) t := by
  refine Consumes.iterate (R := Derives n) (fun us left hleft => ?_) us hleft
  refine (Consumes.oneOf? fun i hi => Nonterminal.leftOperators_ne_endOfInput hi).bind
    fun vs o hvs => ?_
  cases o with
  | none =>
    obtain rfl := hvs
    exact .pure rfl
  | some kind =>
    obtain ⟨op, k, hop, rfl, hk⟩ := hvs
    refine (hoperand.keeping [left]).bind fun ws right hright =>
      .pure ⟨List.cons_ne_nil _ _, ?_⟩
    simpa using Derives.left hop hm hleft hk hright

/-- Phrases with an operator between them that groups from the right. -/
theorem derives_rightNested {n m : Nonterminal} {separator : Symbol} {kind : Kind}
    (honly : ∀ {ts t}, Derives m ts t → Derives n ts t)
    (hnest : ∀ {k ls rs l r}, Derives m ls l → k.type = .symbol separator → Derives n rs r →
      Derives n (ls ++ k :: rs) (.branch kind [l, r]))
    {items : List (Token × Phrase)} (hitems : AreItems separator (Derives m) items)
    {ts : List Token} {t : Tree Label} (h : Derives m ts t) :
    Derives n (ts ++ separated items) (Parser.rightNested kind t (trees items)) := by
  induction items generalizing ts t with
  | nil => simpa [separated, trees, Parser.rightNested] using honly h
  | cons i items ih =>
    obtain ⟨⟨hk, hseps⟩, hi, hphrases⟩ := by simpa only [AreItems, List.forall_mem_cons] using hitems
    exact hnest h hk (ih ⟨hseps, hphrases⟩ hi)

/-! ### Names and parameters -/

/-- A name is an identifier. -/
theorem consumes_name : Consumes Parser.name fun ts t => (⟨ts, t⟩ : Phrase).IsName := by
  refine (Consumes.require (by decide)).bind fun us x hx => .pure ?_
  obtain ⟨rfl, hx⟩ := hx
  exact ⟨x, hx, rfl⟩

/-- The rest of a list of names makes one with the first name. -/
theorem consumes_nameList {x : Token} (hx : x.type = .identifier) :
    Consumes (Parser.nameList (nameLeaf x)) fun ts t => Derives .nameList (x :: ts) t := by
  refine (consumes_separated (by decide) consumes_name _).bind fun us more hus => .pure ?_
  obtain ⟨items, ⟨hseps, hitems⟩, rfl, rfl⟩ := hus
  rw [List.append_nil]
  cases items with
  | nil => exact .singleName hx
  | cons i items => exact .names hx (List.cons_ne_nil i items) hseps hitems

/-- A parameter is a name, or starts with a parenthesis and goes on as a list of names. -/
theorem enters_parameter :
    Enters Parser.parameter Parser.parameterStart (Derives .parameter) where
  ne_endOfInput := by decide
  nonempty := ⟨.identifier, by decide⟩
  goesOn k₁ hk₁ := by
    by_cases hx : k₁.type = .identifier
    · exact ⟨pure (nameLeaf k₁), .pure (.parameterName hx), fun rest expected =>
        Parser.bind_of_eq_ok (Parser.accept?_cons hx rest expected)⟩
    · -- without a name in front, only the parenthesis is left
      have hne : ∀ rest, headType (k₁ :: rest) ≠ .identifier := fun _ => hx
      have hparen : k₁.type = .symbol .lparen := by
        simpa [hx, Nonterminal.starts] using contains_parameterStart.1 hk₁
      refine ⟨_, ?_, fun rest expected =>
        (Parser.bind_of_eq_ok (Parser.accept?_of_ne (hne rest) expected)).trans
          (Parser.bind_of_eq_ok (Parser.require_cons hparen rest _))⟩
      refine (Consumes.accept? (by decide)).bind fun us o hus => ?_
      cases o with
      | some k₂ =>
        obtain ⟨rfl, hk₂⟩ := hus
        exact .pure (.parameterUnit hparen hk₂)
      | none =>
        obtain rfl := hus
        refine consumes_name.bind fun us first hfirst => ?_
        obtain ⟨x, hx, hxs⟩ := hfirst
        cases hxs
        refine (consumes_nameList hx).bind fun us names hnames => ?_
        refine ((Consumes.require (by decide)).keeping _).bind fun ws k₂ hk₂ => .pure ?_
        obtain ⟨rfl, hk₂⟩ := hk₂
        simpa using Derives.parameterNames hparen hnames hk₂
  stops := by
    refine ⟨[], fun expected rest hrest => ?_⟩
    have hne : headType rest ≠ .identifier ∧ headType rest ≠ .symbol .lparen := by
      simpa [Parser.parameterStart] using hrest
    -- both attempts have failed, and each has added what it expected
    have hset : (expected.insert .identifier).insert (.symbol .lparen) =
        expected.union Parser.parameterStart := by
      ext tt
      simp [Parser.parameterStart, Bool.or_comm, Bool.or_left_comm, Bool.or_assoc]
    refine (Parser.bind_of_eq_ok (Parser.accept?_of_ne hne.1 expected)).trans ?_
    exact (Parser.bind_of_eq_error (Parser.require_of_ne hne.2 _)).trans (by rw [hset]; rfl)

/-- A parameter is a name or a list of names in parentheses. -/
theorem consumes_parameter : Consumes Parser.parameter (Derives .parameter) :=
  enters_parameter.consumes

/-! ### Expressions -/

section

variable {self : Goal → Parser (Tree Label)} (hself : IsSound self)
include hself

/-- An operand is a leaf, or starts with a parenthesis and goes on as an expression. -/
theorem enters_operand :
    Enters (Parser.operand self) Parser.operandStart (Derives .operand) where
  ne_endOfInput := by decide
  nonempty := ⟨.identifier, by decide⟩
  goesOn k₁ hk₁ := by
    cases hleaf : Parser.leaf? k₁.lexeme with
    | some l =>
      obtain ⟨kind, text⟩ := l
      obtain ⟨hkind, rfl⟩ := Parser.leaf?_eq_some.1 hleaf
      exact ⟨pure (leaf kind k₁), .pure (.leaf hkind), fun rest expected =>
        Parser.operand_of_leaf self hleaf⟩
    | none =>
      have hparen : k₁.type = .symbol .lparen := by
        rcases List.mem_cons.1 (contains_operandStart.1 hk₁) with hparen | hmem
        · exact hparen
        · obtain ⟨⟨tt, kind⟩, hkind, rfl⟩ := List.mem_map.1 hmem
          cases hleaf.symm.trans (Parser.leaf?_eq_some.2 ⟨hkind, rfl⟩)
      refine ⟨_, ?_, fun rest expected =>
        (Parser.operand_of_none self (c := ⟨k₁ :: rest, expected⟩) hleaf).trans
          (Parser.bind_of_eq_ok (Parser.accept?_cons hparen rest expected))⟩
      refine (hself .expression).bind fun us t ht => ?_
      refine ((Consumes.require (by decide)).keeping _).bind fun vs k₂ hk₂ => .pure ?_
      obtain ⟨rfl, hk₂⟩ := hk₂
      simpa using Derives.parenthesized hparen ht hk₂
  stops := by
    refine ⟨[], fun expected rest hrest => ?_⟩
    have hnone : headType rest ∉ operandStarts := by
      rwa [← contains_operandStart, Bool.not_eq_true]
    obtain ⟨hparen, hmem⟩ := not_or.1 (mt List.mem_cons.2 hnone)
    have hleaf : Parser.leaf? (Cursor.mk rest expected).current.lexeme = none := by
      refine Option.eq_none_iff_forall_ne_some.2 fun l hl => hmem ?_
      exact List.mem_map_of_mem (Parser.leaf?_eq_some.1 hl).1
    -- the parenthesis is looked for first, and is one of the tokens that an operand starts with
    have hset : (expected.insert (.symbol .lparen)).union Parser.operandStart =
        expected.union Parser.operandStart := by
      ext tt
      by_cases htt : tt = .symbol .lparen <;> simp [Parser.operandStart, htt]
    refine (Parser.operand_of_none self hleaf).trans ?_
    refine (Parser.bind_of_eq_ok (Parser.accept?_of_ne hparen expected)).trans ?_
    refine (Parser.bind_of_eq_ok (Parser.startsWith_of_not_contains hrest _)).trans ?_
    rw [hset]
    rfl

/-- An application is a chain of operands. -/
theorem consumes_application : Consumes (Parser.application self) (Derives .application) := by
  have hoperand := enters_operand hself
  refine hoperand.consumes.bind fun us f hf => ?_
  refine Consumes.iterate (R := Derives .application) (fun us f hf => ?_) _ (.only rfl hf)
  refine ((hoperand.keeping [f]).bind fun k ws a ha => .pure ?_).orElse rfl
  exact ⟨List.cons_ne_nil _ _, by simpa using Derives.gamma hf ha⟩

/-- An application by name is a chain with names as operators. -/
theorem consumes_applicationByName :
    Consumes (Parser.applicationByName self) (Derives .applicationByName) := by
  refine (consumes_application hself).bind fun us left hleft => ?_
  refine Consumes.iterate (R := Derives .applicationByName) (fun us left hleft => ?_) _
    (.only rfl hleft)
  refine (Consumes.accept? (by decide)).bind fun vs o hvs => ?_
  cases o with
  | none =>
    obtain rfl := hvs
    exact .pure rfl
  | some k =>
    obtain ⟨rfl, hk⟩ := hvs
    refine (consumes_name.keeping [left]).bind fun vs f hf => ?_
    obtain ⟨x, hx, hxs⟩ := hf
    cases hxs
    refine ((consumes_application hself).keeping _).bind fun ws right hright =>
      .pure ⟨List.cons_ne_nil _ _, ?_⟩
    simpa using Derives.atName hleft hk hx hright

/-- A power groups from the right. -/
theorem consumes_power : Consumes (Parser.power self) (Derives .power) := by
  refine (consumes_applicationByName hself).bind fun us base hbase => ?_
  refine (consumes_separated (by decide) (consumes_applicationByName hself) base).bind
    fun vs more hmore => .pure ?_
  obtain ⟨items, hitems, rfl, rfl⟩ := hmore
  rw [List.append_nil]
  exact derives_rightNested (fun h => .only rfl h) .power hitems hbase

/-- A product is a chain of powers. -/
theorem consumes_product : Consumes (Parser.product self) (Derives .product) :=
  (consumes_power hself).bind fun _ _ h =>
    consumes_leftNested (n := .product) rfl (consumes_power hself) (.only rfl h)

/-- The first product of a sum is a sum. -/
theorem consumes_signedProduct : Consumes (Parser.signedProduct self) (Derives .sum) := by
  refine (Consumes.accept? (by decide)).bind fun us o hus => ?_
  cases o with
  | some k =>
    obtain ⟨rfl, hk⟩ := hus
    exact (consumes_product hself).mono fun ts t ht => .plus hk ht
  | none =>
    subst hus
    refine (Consumes.accept? (by decide)).bind fun us o hus => ?_
    cases o with
    | some k =>
      obtain ⟨rfl, hk⟩ := hus
      refine (consumes_product hself).bind fun ts t ht => .pure ?_
      simpa using Derives.minus hk ht
    | none =>
      subst hus
      exact (consumes_product hself).mono fun ts t ht => .only rfl ht

/-- A sum starts with a product or with a sign. -/
theorem consumes_sum : Consumes (Parser.sum self) (Derives .sum) :=
  (consumes_signedProduct hself).bind fun _ _ h =>
    consumes_leftNested (n := .sum) rfl (consumes_product hself) h

/-- A comparison has one operator or none. -/
theorem consumes_comparison : Consumes (Parser.comparison self) (Derives .comparison) := by
  refine (consumes_sum hself).bind fun us left hleft => ?_
  refine (Consumes.oneOf? fun i hi => ne_endOfInput_of_mem_comparisonOperators hi).bind
    fun vs o hvs => ?_
  cases o with
  | none =>
    subst hvs
    exact .pure (by simpa using Derives.only rfl hleft)
  | some kind =>
    obtain ⟨op, k, hop, rfl, hk⟩ := hvs
    refine ((consumes_sum hself).keeping _).bind fun ws right hright => .pure ?_
    simpa using Derives.comparison hop hleft hk hright

/-- A negation starts with `not` or is a comparison. -/
theorem consumes_negation : Consumes (Parser.negation self) (Derives .negation) := by
  refine (Consumes.accept? (by decide)).bind fun us o hus => ?_
  cases o with
  | some k =>
    obtain ⟨rfl, hk⟩ := hus
    refine (consumes_comparison hself).bind fun ts t ht => .pure ?_
    simpa using Derives.not hk ht
  | none =>
    subst hus
    exact (consumes_comparison hself).mono fun ts t ht => .only rfl ht

/-- A conjunction is a chain of negations. -/
theorem consumes_conjunction : Consumes (Parser.conjunction self) (Derives .conjunction) :=
  (consumes_negation hself).bind fun _ _ h =>
    consumes_leftNested (n := .conjunction) rfl (consumes_negation hself) (.only rfl h)

/-- A disjunction is a chain of conjunctions. -/
theorem consumes_disjunction : Consumes (Parser.disjunction self) (Derives .disjunction) :=
  (consumes_conjunction hself).bind fun _ _ h =>
    consumes_leftNested (n := .disjunction) rfl (consumes_conjunction hself) (.only rfl h)

/-- A conditional has a condition and two branches, or is a disjunction. -/
theorem consumes_conditional : Consumes (Parser.conditional self) (Derives .conditional) := by
  refine (consumes_disjunction hself).bind fun us condition hcondition => ?_
  refine (Consumes.accept? (by decide)).bind fun vs o hvs => ?_
  cases o with
  | none =>
    subst hvs
    exact .pure (by simpa using Derives.only rfl hcondition)
  | some k₁ =>
    obtain ⟨rfl, hk₁⟩ := hvs
    refine ((hself .branch).keeping _).bind fun vs first hfirst => ?_
    refine ((Consumes.require (by decide)).keeping _).bind fun ws k₂ hk₂ => ?_
    obtain ⟨rfl, hk₂⟩ := hk₂
    refine ((hself .branch).keeping _).bind fun ws second hsecond => .pure ?_
    simpa using Derives.conditional hcondition hk₁ hfirst hk₂ hsecond

/-- An augmentation is a chain of conditionals. -/
theorem consumes_augmentation : Consumes (Parser.augmentation self) (Derives .augmentation) :=
  (consumes_conditional hself).bind fun _ _ h =>
    consumes_leftNested (n := .augmentation) rfl (consumes_conditional hself) (.only rfl h)

/-- A tuple has at least two members, or is an augmentation. -/
theorem consumes_tuple : Consumes (Parser.tuple self) (Derives .tuple) := by
  refine (consumes_augmentation hself).bind fun us first hfirst => ?_
  refine (consumes_separated (by decide) (consumes_augmentation hself) first).bind
    fun vs more hmore => .pure ?_
  obtain ⟨items, ⟨hseps, hitems⟩, rfl, rfl⟩ := hmore
  rw [List.append_nil]
  cases items with
  | nil =>
    rw [separated_nil, List.append_nil]
    exact .only rfl hfirst
  | cons i items => exact .tau hfirst (List.cons_ne_nil i items) hseps hitems

/-! ### Definitions -/

/-- A basic definition is an equation, a function form, or a definition in parentheses. -/
theorem consumes_basicDefinition : Consumes (Parser.basicDefinition self) (Derives .basic) := by
  refine (Consumes.accept? (by decide)).bind fun us o hus => ?_
  cases o with
  | some k₁ =>
    obtain ⟨rfl, hk₁⟩ := hus
    refine (hself .definition).bind fun us t ht => ?_
    refine ((Consumes.require (by decide)).keeping _).bind fun vs k₂ hk₂ => .pure ?_
    obtain ⟨rfl, hk₂⟩ := hk₂
    simpa using Derives.parenthesizedDefinition hk₁ ht hk₂
  | none =>
    subst hus
    refine consumes_name.bind fun us first hfirst => ?_
    obtain ⟨x, hx, hxs⟩ := hfirst
    cases hxs
    refine (consumes_many enters_parameter _).bind fun vs more hmore => ?_
    obtain ⟨phrases, hphrases, rfl, rfl⟩ := hmore
    cases phrases with
    | nil =>
      -- without parameters the name is the first of a list of names
      refine (consumes_nameList hx).bind fun ws names hnames => ?_
      refine ((Consumes.require (by decide)).keeping _).bind fun vs k hk => ?_
      obtain ⟨rfl, hk⟩ := hk
      refine ((hself .expression).keeping _).bind fun vs e he => .pure ?_
      simpa [joined] using Derives.equation hnames hk he
    | cons v vs =>
      refine ((Consumes.require (by decide)).keeping _).bind fun ws k hk => ?_
      obtain ⟨rfl, hk⟩ := hk
      refine ((hself .expression).keeping _).bind fun ws e he => .pure ?_
      simpa using Derives.functionForm hx (List.cons_ne_nil v vs) hphrases hk he

/-- A recursive definition is a basic one, with or without `rec`. -/
theorem consumes_recursiveDefinition :
    Consumes (Parser.recursiveDefinition self) (Derives .recursive) := by
  refine (Consumes.accept? (by decide)).bind fun us o hus => ?_
  cases o with
  | some k =>
    obtain ⟨rfl, hk⟩ := hus
    refine (consumes_basicDefinition hself).bind fun ts t ht => .pure ?_
    simpa using Derives.recursive hk ht
  | none =>
    subst hus
    exact (consumes_basicDefinition hself).mono fun ts t ht => .only rfl ht

/-- Simultaneous definitions are at least two, or a single definition. -/
theorem consumes_simultaneousDefinition :
    Consumes (Parser.simultaneousDefinition self) (Derives .simultaneous) := by
  refine (consumes_recursiveDefinition hself).bind fun us first hfirst => ?_
  refine (consumes_separated (by decide) (consumes_recursiveDefinition hself) first).bind
    fun vs more hmore => .pure ?_
  obtain ⟨items, ⟨hseps, hitems⟩, rfl, rfl⟩ := hmore
  rw [List.append_nil]
  cases items with
  | nil =>
    rw [separated_nil, List.append_nil]
    exact .only rfl hfirst
  | cons i items => exact .simultaneous hfirst (List.cons_ne_nil i items) hseps hitems

/-- A definition groups its inner definitions from the right. -/
theorem consumes_definition : Consumes (Parser.definition self) (Derives .definition) := by
  refine (consumes_simultaneousDefinition hself).bind fun us first hfirst => ?_
  refine (consumes_separated (by decide) (consumes_simultaneousDefinition hself) first).bind
    fun vs more hmore => .pure ?_
  obtain ⟨items, hitems, rfl, rfl⟩ := hmore
  rw [List.append_nil]
  exact derives_rightNested (fun h => .only rfl h) .within hitems hfirst

/-- A `where` clause has a definition behind it, or is a tuple. -/
theorem consumes_whereClause : Consumes (Parser.whereClause self) (Derives .whereClause) := by
  refine (consumes_tuple hself).bind fun us body hbody => ?_
  refine (Consumes.accept? (by decide)).bind fun vs o hvs => ?_
  cases o with
  | none =>
    subst hvs
    exact .pure (by simpa using Derives.only rfl hbody)
  | some k =>
    obtain ⟨rfl, hk⟩ := hvs
    refine ((consumes_recursiveDefinition hself).keeping _).bind fun ws d hd => .pure ?_
    simpa using Derives.whereIn hbody hk hd

/-- An expression is a `let`, a lambda or a `where` clause. -/
theorem consumes_expression : Consumes (Parser.expression self) (Derives .expression) := by
  refine (Consumes.accept? (by decide)).bind fun us o hus => ?_
  -- `let` starts a definition in front of the body
  cases o with
  | some k₁ =>
    obtain ⟨rfl, hk₁⟩ := hus
    refine (hself .definition).bind fun us bound hbound => ?_
    refine ((Consumes.require (by decide)).keeping _).bind fun vs k₂ hk₂ => ?_
    obtain ⟨rfl, hk₂⟩ := hk₂
    refine ((hself .expression).keeping _).bind fun vs e he => .pure ?_
    simpa using Derives.letIn hk₁ hbound hk₂ he
  | none =>
    subst hus
    refine (Consumes.accept? (by decide)).bind fun us o hus => ?_
    -- `fn` starts a list of parameters
    cases o with
    | some k₁ =>
      obtain ⟨rfl, hk₁⟩ := hus
      refine consumes_parameter.bind fun us first hfirst => ?_
      refine (consumes_many enters_parameter first).bind fun vs more hmore => ?_
      obtain ⟨phrases, hphrases, rfl, rfl⟩ := hmore
      refine ((Consumes.require (by decide)).keeping _).bind fun vs k₂ hk₂ => ?_
      obtain ⟨rfl, hk₂⟩ := hk₂
      refine ((hself .expression).keeping _).bind fun vs e he => .pure ?_
      have hall : ∀ v ∈ (⟨us, first⟩ :: phrases : List Phrase), Derives .parameter v.tokens v.tree :=
        List.forall_mem_cons.2 ⟨hfirst, hphrases⟩
      simpa [joined] using Derives.lambda hk₁ (List.cons_ne_nil _ _) hall hk₂ he
    | none =>
      subst hus
      exact (consumes_whereClause hself).mono fun ts t ht => .only rfl ht

/-- The parsers for the goals are sound as soon as those for the goals within them are. -/
theorem isSound_goal : IsSound (Parser.goal self)
  | .expression => consumes_expression hself
  | .branch => consumes_conditional hself
  | .definition => consumes_definition hself

end

/-! ### Programs -/

/-- Each goal has a sentence. -/
theorem exists_derives (g : Goal) : ∃ ts t, Derives (ofGoal g) ts t := by
  obtain ⟨x, hx⟩ := TokenType.identifier.exists_token
  obtain ⟨k, hk⟩ := (TokenType.symbol .equals).exists_token
  have hsum : Derives .sum [x] (nameLeaf x) :=
    .only rfl (.only rfl (.only rfl (.only rfl (.only rfl (.leaf (by rw [hx]; decide))))))
  have hbranch : Derives .conditional [x] (nameLeaf x) :=
    .only rfl (.only rfl (.only rfl (.only rfl (.only rfl hsum))))
  have hexpression : Derives .expression [x] (nameLeaf x) :=
    .only rfl (.only rfl (.only rfl (.only rfl hbranch)))
  cases g with
  | expression => exact ⟨_, _, hexpression⟩
  | branch => exact ⟨_, _, hbranch⟩
  | definition =>
    exact ⟨_, _, .only rfl (.only rfl (.only rfl (.equation (.singleName hx) hk hexpression)))⟩

/-- Every goal is sound at every depth. -/
theorem isSound_nested (depth : Nat) : IsSound (Parser.nested depth) := by
  induction depth with
  | zero => exact fun g => .unexpected (exists_derives g)
  | succ depth ih => exact isSound_goal ih

end Rpal.Grammar
