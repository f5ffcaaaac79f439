import Rpal.Proofs.Grammar.Soundness

/-!
# Completeness of the parser

In front of a token that cannot continue it, the parser takes a sentence as a whole and returns its
tree. The tokens that can continue a sentence are `Nonterminal.extensions`: a production stops as
soon as the next token is none of them, and within a sentence every phrase is followed by a token
that is not an extension of the phrase. This is why the first reading of a phrase is the only one.

As for soundness there is one lemma per production, for sentences of a bounded length: the goals
within a production are sentences that are shorter by at least one token.

## Key results

- `isComplete_nested`: a goal at depth `n` reads every sentence of at most `n` tokens
- `complete_chain`, `complete_rightNested`: operators of one level are read as their nonterminal says
-/

namespace Rpal.Grammar

open Rpal.Parser (Reads Steps Goal headType)

/-! ### The token behind a sentence -/

/-- The operators between phrases, from the tightest to the loosest. -/
def operators : List Symbol :=
  [.atSign, .power, .star, .slash, .plus, .minus] ++ comparisonOperators.map Prod.fst ++
    [.ampersand, .orKw, .arrow, .augKw, .comma, .whereKw, .andKw, .withinKw]

namespace Nonterminal

/-- How many of the operators, from the tightest, are at most as loose as the nonterminal. -/
def looseness : Nonterminal → Nat
  | operand | parameter | nameList | application => 0
  | applicationByName => 1
  | power => 2
  | product => 4
  | sum => 6
  | comparison | negation => 16
  | conjunction => 17
  | disjunction => 18
  | conditional => 19
  | augmentation => 20
  | tuple => 21
  | whereClause | expression | basic | recursive => 22
  | simultaneous => 23
  | definition => 24

/-- The tokens behind a sentence of the nonterminal that can continue it. -/
def extensions : Nonterminal → List TokenType
  | operand | parameter => []
  | nameList => [.symbol .comma]
  | n => operandStarts ++ (operators.take n.looseness).map .symbol

/-- What continues the last alternative of a production continues the production. -/
theorem extensions_alternative {n m : Nonterminal} (h : n.alternative? = some m) :
    m.extensions ⊆ n.extensions := by
  cases n <;> cases h <;> decide

/-- An operator between operands continues the production, and does not continue its operands. -/
theorem leftOperators_extensions {n m : Nonterminal} (h : n.alternative? = some m) :
    ∀ i ∈ n.leftOperators, .symbol i.1 ∈ n.extensions ∧ .symbol i.1 ∉ m.extensions := by
  cases n <;> cases h <;> decide

/-- The operators of a production are listed once. -/
theorem leftOperators_nodup (n : Nonterminal) : (n.leftOperators.map Prod.fst).Nodup := by
  cases n <;> decide

end Nonterminal

/-- A comparison continues a comparison, and does not continue its operands. -/
theorem comparisonOperators_extensions : ∀ i ∈ comparisonOperators,
    .symbol i.1 ∈ Nonterminal.extensions .comparison ∧
      .symbol i.1 ∉ Nonterminal.extensions .sum := by
  decide

/-- No token at the head of `rest` continues a sentence of `n`. -/
def Stops (n : Nonterminal) (rest : List Token) : Prop :=
  headType rest ∉ n.extensions

/-- Less can continue a tighter phrase. -/
theorem Stops.mono {n m : Nonterminal} {rest : List Token} (h : Stops n rest)
    (hsub : m.extensions ⊆ n.extensions) : Stops m rest :=
  fun hm => h (hsub hm)

/-- The head is none of the tokens that can continue a sentence. -/
theorem Stops.headType_ne {n : Nonterminal} {rest : List Token} (h : Stops n rest)
    {tt : TokenType} (htt : tt ∈ n.extensions) : headType rest ≠ tt :=
  fun heq => h (heq ▸ htt)

/-- A token stops a sentence that it cannot continue. -/
theorem stops_cons {n : Nonterminal} {k : Token} {tt : TokenType} (hk : k.type = tt)
    (htt : tt ∉ n.extensions) (ks : List Token) : Stops n (k :: ks) := by
  rwa [Stops, Parser.headType_cons, hk]

/-- A token at the head is not of another type. -/
theorem headType_cons_ne {k : Token} {tt tt' : TokenType} (hk : k.type = tt) (hne : tt ≠ tt')
    (ks : List Token) : headType (k :: ks) ≠ tt' := by
  rwa [Parser.headType_cons, hk]

/-- A sentence does not start with a token that its nonterminal does not start with. -/
theorem Derives.headType_ne {n : Nonterminal} {ts : List Token} {t : Tree Label}
    (h : Derives n ts t) {tt : TokenType} (htt : tt ∉ n.starts) (rest : List Token) :
    headType (ts ++ rest) ≠ tt := by
  obtain ⟨k, ks, rfl, hk⟩ := h.exists_cons
  rintro rfl
  exact htt hk

/-! ### Complete parsers -/

/-- In front of what cannot continue it, `p` reads every sentence of `n` with at most `N` tokens. -/
def Complete (p : Parser (Tree Label)) (n : Nonterminal) (N : Nat) : Prop :=
  ∀ ts t, Derives n ts t → ts.length ≤ N → ∀ rest, Stops n rest → p.Reads ts rest t

/-- The parsers for the goals read the sentences with at most `N` tokens. -/
def IsComplete (self : Goal → Parser (Tree Label)) (N : Nat) : Prop :=
  ∀ g, Complete (self g) (ofGoal g) N

/-! ### Lists of phrases -/

/-- A list behind separators is read item by item. Each item is followed by a separator or by what
    is behind the list, where `S` says that items end. -/
theorem reads_separated {separator : Symbol} {item : Parser (Tree Label)}
    {S : List Token → Prop} (hS : ∀ k ks, k.type = .symbol separator → S (k :: ks))
    (first : Tree Label) (items : List (Token × Phrase))
    (hitems : AreItems separator (fun ts t => ∀ rest, S rest → item.Reads ts rest t) items)
    {rest : List Token} (hrest : S rest) (hend : headType rest ≠ .symbol separator) :
    (Parser.separated separator item first).Reads (separated items) rest (trees items) := by
  -- the loop collects the trees with the last one first
  have hloop : ∀ behind, Steps (Parser.separatedStep separator item first) rest
      (separated items) behind ((trees items).reverse ++ behind) := by
    induction items with
    | nil => exact fun behind => .done (.bind_nil (.accept?_none hend) (.pure none))
    | cons i items ih =>
      intro behind
      obtain ⟨⟨hk, hseps⟩, hi, hphrases⟩ := by
        simpa only [AreItems, List.forall_mem_cons] using hitems
      have hnext : S (separated items ++ rest) := by
        cases items with
        | nil => exact hrest
        | cons j _ => exact hS j.1 _ (hseps j List.mem_cons_self)
      have hstep := ih ⟨hseps, hphrases⟩ (i.2.tree :: behind)
      rw [trees_cons, List.reverse_cons, List.append_assoc]
      rw [separated_cons, ← List.cons_append]
      refine .next (List.cons_ne_nil _ _) ?_ hstep
      refine .bind_cons (.accept? hk) (.bind_pure (.keepingFrom _ _ (hi _ hnext)))
  have hall := (hloop []).iterate
  rw [List.append_nil] at hall
  have := Reads.bind_pure (f := List.reverse) hall
  rwa [List.reverse_reverse] at this

/-- An item is not longer than the list that it is in. -/
theorem length_le_separated {items : List (Token × Phrase)} {i : Token × Phrase} (hi : i ∈ items) :
    i.2.tokens.length ≤ (separated items).length := by
  induction items with
  | nil => exact nomatch hi
  | cons j items ih =>
    rw [separated_cons, List.length_cons, List.length_append]
    rcases List.mem_cons.1 hi with rfl | hi
    · omega
    · have := ih hi
      omega

/-- A sentence of `m` with others behind separators is read as a first item with a list. -/
theorem Complete.gathers {m : Nonterminal} {separator : Symbol} {item : Parser (Tree Label)}
    {N : Nat} (hitem : Complete item m N) (hsep : .symbol separator ∉ m.extensions)
    (f : Tree Label → List (Tree Label) → Tree Label) {us : List Token} {first : Tree Label}
    (hfirst : Derives m us first) (items : List (Token × Phrase))
    (hitems : AreItems separator (Derives m) items) (hN : (us ++ separated items).length ≤ N)
    {rest : List Token} (hrest : Stops m rest) (hend : headType rest ≠ .symbol separator) :
    (item >>= fun first => do
      return f first (← Parser.separated separator item first)).Reads
      (us ++ separated items) rest (f first (trees items)) := by
  rw [List.length_append] at hN
  have hnext : Stops m (separated items ++ rest) := by
    cases items with
    | nil => exact hrest
    | cons i _ => exact stops_cons (hitems.1 i List.mem_cons_self) hsep _
  refine .bind (hitem us first hfirst (by omega) _ hnext) (.bind_pure ?_)
  refine reads_separated (S := Stops m) (fun k ks hk => stops_cons hk hsep ks) first _
    ⟨hitems.1, fun i hi rest hrest => ?_⟩ hrest hend
  have := length_le_separated hi
  exact hitem _ _ (hitems.2 i hi) (by omega) rest hrest

/-- A list of phrases is read phrase by phrase. -/
theorem reads_many {start : TokenSet} {item : Parser (Tree Label)} (first : Tree Label)
    (vs : List Phrase) (hitems : ∀ v ∈ vs, ∀ rest, item.Reads v.tokens rest v.tree)
    (hstart : ∀ v ∈ vs, ∃ k ks, v.tokens = k :: ks ∧ start.contains k.type)
    {rest : List Token} (hend : start.contains (headType rest) = false) :
    (Parser.many start item first).Reads (joined vs) rest (vs.map Phrase.tree) := by
  -- the loop puts the trees in front of those that it has, so that they come out in reverse order
  have hloop : ∀ behind, Steps (fun behind => do
      if ← Parser.startsWith start then
        return some ((← Parser.keepingFrom first behind item) :: behind)
      else
        return none) rest (joined vs) behind ((vs.map Phrase.tree).reverse ++ behind) := by
    induction vs with
    | nil =>
      refine fun behind => .done (.bind_nil (.startsWith _) ?_)
      rw [List.nil_append, hend]
      exact .pure none
    | cons v vs ih =>
      intro behind
      obtain ⟨hv, hitems⟩ := List.forall_mem_cons.1 hitems
      obtain ⟨⟨k, ks, hks, hk⟩, hstart⟩ := List.forall_mem_cons.1 hstart
      rw [List.map_cons, List.reverse_cons, List.append_assoc, joined_cons]
      refine .next (by rw [hks]; exact List.cons_ne_nil k ks) ?_
        (ih hitems hstart (v.tree :: behind))
      refine .bind_nil (.startsWith _) ?_
      rw [hks, List.cons_append, Parser.headType_cons, hk, ← hks]
      exact .bind_pure (.keepingFrom _ _ (hv _))
  have hall := (hloop []).iterate
  rw [List.append_nil] at hall
  have := Reads.bind_pure (f := List.reverse) hall
  rwa [List.reverse_reverse] at this

/-- A loop reads a left-recursive production. A sentence of the production is the first phrase of
    the loop, or one step of the loop leads to it from a shorter sentence. -/
theorem complete_iterate {n m : Nonterminal} {first : Parser (Tree Label)}
    {step : Tree Label → Parser (Option (Tree Label))} {N : Nat}
    (hsub : m.extensions ⊆ n.extensions)
    (hcases : ∀ ts t, Derives n ts t → ts.length ≤ N →
      (∀ rest, Stops m rest → first.Reads ts rest t) ∨
      ∃ ls k us l, ts = ls ++ k :: us ∧ Derives n ls l ∧ k.type ∉ m.extensions ∧
        ∀ rest, Stops m rest → (step l).Reads (k :: us) rest (some t))
    (hend : ∀ rest t, Stops n rest → (step t).Reads [] rest none) :
    Complete (first >>= Parser.iterate step) n N := by
  -- the steps behind a shorter sentence go on with those behind the sentence
  have hgoes : ∀ len ts t, ts.length < len → Derives n ts t → ts.length ≤ N →
      ∀ vs rest x, Steps step rest vs t x → Stops m (vs ++ rest) →
        (first >>= Parser.iterate step).Reads (ts ++ vs) rest x := by
    intro len
    induction len with
    | zero => exact fun ts t hlen => absurd hlen (Nat.not_lt_zero _)
    | succ len ih =>
      intro ts t hlen h hN vs rest x hsteps hstops
      rcases hcases ts t h hN with hfirst | ⟨ls, k, us, l, rfl, hl, hk, hstep⟩
      · exact .bind (hfirst _ hstops) hsteps.iterate
      · simp only [List.length_append, List.length_cons] at hlen hN
        have hall := Steps.next (List.cons_ne_nil k us) (hstep _ hstops) hsteps
        rw [List.append_assoc]
        exact ih ls l (by omega) hl (by omega) _ rest x hall hk
  intro ts t h hN rest hstops
  have := hgoes _ ts t (Nat.lt_succ_self _) h hN [] rest t (.done (hend rest t hstops))
    (hstops.mono hsub)
  rwa [List.append_nil] at this

/-- A chain of operators that group from the left, after a parser for a chain without operators. -/
theorem complete_leftNested {n m : Nonterminal} (hm : n.alternative? = some m)
    {first operand : Parser (Tree Label)} {N : Nat} (hoperand : Complete operand m N)
    (hcases : ∀ ts t, Derives n ts t → ts.length ≤ N →
      (∀ rest, Stops m rest → first.Reads ts rest t) ∨
      ∃ ls k rs l r op kind, ts = ls ++ k :: rs ∧ t = .branch kind [l, r] ∧
        (op, kind) ∈ n.leftOperators ∧ Derives n ls l ∧ k.type = .symbol op ∧ Derives m rs r) :
    Complete (first >>= Parser.leftNested n.leftOperators operand) n N := by
  have hops := Nonterminal.leftOperators_extensions hm
  refine complete_iterate (Nonterminal.extensions_alternative hm) (fun ts t h hN => ?_)
    (fun rest t hstops => ?_)
  · refine (hcases ts t h hN).imp_right ?_
    rintro ⟨ls, k, rs, l, r, op, kind, rfl, rfl, hop, hl, hk, hr⟩
    refine ⟨ls, k, rs, l, rfl, hl, hk ▸ (hops _ hop).2, fun rest hstops => ?_⟩
    rw [List.length_append, List.length_cons] at hN
    refine .bind_cons (.oneOf? n.leftOperators_nodup hop hk) (.bind_pure (.keeping _ ?_))
    exact hoperand rs r hr (by omega) rest hstops
  · exact .bind_nil (.oneOf?_none fun i hi => hstops.headType_ne (hops i hi).1) (.pure none)

/-- The productions of operators that group from the left have no other alternatives, except that
    of sums. -/
theorem Derives.chain_cases {n m : Nonterminal}
    (hn : n ∈ [Nonterminal.augmentation, .disjunction, .conjunction, .product])
    (hm : n.alternative? = some m) {ts : List Token} {t : Tree Label} (h : Derives n ts t) :
    Derives m ts t ∨
      ∃ ls k rs l r op kind, ts = ls ++ k :: rs ∧ t = .branch kind [l, r] ∧
        (op, kind) ∈ n.leftOperators ∧ Derives n ls l ∧ k.type = .symbol op ∧ Derives m rs r := by
  cases h with
  | only hm' h =>
    obtain rfl := Option.some.inj (hm.symm.trans hm')
    exact .inl h
  | left hop hm' hl hk hr =>
    obtain rfl := Option.some.inj (hm.symm.trans hm')
    exact .inr ⟨_, _, _, _, _, _, _, rfl, rfl, hop, hl, hk, hr⟩
  | _ => simp at hn

/-- A chain of operators that group from the left, where all operands are alike. -/
theorem complete_chain {n m : Nonterminal}
    (hn : n ∈ [Nonterminal.augmentation, .disjunction, .conjunction, .product])
    (hm : n.alternative? = some m) {operand : Parser (Tree Label)} {N : Nat}
    (hoperand : Complete operand m N) :
    Complete (operand >>= Parser.leftNested n.leftOperators operand) n N :=
  complete_leftNested hm hoperand fun ts t h hN =>
    (h.chain_cases hn hm).imp_left fun h => hoperand ts t h hN

/-- A chain of operators that group from the right. -/
theorem complete_rightNested {n m : Nonterminal} {separator : Symbol} {kind : Kind}
    (hsub : m.extensions ⊆ n.extensions) (hsep : .symbol separator ∈ n.extensions)
    (hsepm : .symbol separator ∉ m.extensions) {operand : Parser (Tree Label)} {N : Nat}
    (hoperand : Complete operand m N)
    (hcases : ∀ ts t, Derives n ts t → Derives m ts t ∨
      ∃ ls k rs l r, ts = ls ++ k :: rs ∧ t = .branch kind [l, r] ∧
        Derives m ls l ∧ k.type = .symbol separator ∧ Derives n rs r) :
    Complete (operand >>= fun first => do
      return Parser.rightNested kind first (← Parser.separated separator operand first)) n N := by
  -- a sentence is a first phrase with phrases behind separators
  have hitems : ∀ len ts t, ts.length < len → Derives n ts t → ∃ us first items,
      ts = us ++ separated items ∧ t = Parser.rightNested kind first (trees items) ∧
        Derives m us first ∧ AreItems separator (Derives m) items := by
    intro len
    induction len with
    | zero => exact fun ts t hlen => absurd hlen (Nat.not_lt_zero _)
    | succ len ih =>
      intro ts t hlen h
      rcases hcases ts t h with h | ⟨ls, k, rs, l, r, rfl, rfl, hl, hk, hr⟩
      · exact ⟨ts, t, [], (List.append_nil ts).symm, rfl, h, nofun, nofun⟩
      · simp only [List.length_append, List.length_cons] at hlen
        obtain ⟨us, first, items, rfl, rfl, hfirst, hseps, hphrases⟩ := ih rs r (by omega) hr
        refine ⟨ls, l, (k, ⟨us, first⟩) :: items, rfl, rfl, hl, ?_, ?_⟩
        · exact List.forall_mem_cons.2 ⟨hk, hseps⟩
        · exact List.forall_mem_cons.2 ⟨hfirst, hphrases⟩
  intro ts t h hN rest hstops
  obtain ⟨us, first, items, rfl, rfl, hfirst, hseps, hphrases⟩ :=
    hitems _ ts t (Nat.lt_succ_self _) h
  exact hoperand.gathers hsepm (Parser.rightNested kind) hfirst _ ⟨hseps, hphrases⟩ hN
    (hstops.mono hsub) (hstops.headType_ne hsep)

/-! ### Names and parameters -/

/-- A name is read, whatever is behind it. -/
theorem reads_name {x : Token} (hx : x.type = .identifier) (rest : List Token) :
    Parser.name.Reads [x] rest (nameLeaf x) :=
  .bind_pure (.require hx)

/-- A list of names is a name and what the parser reads behind it, if anything then a comma
    first. -/
theorem Derives.nameList_inv {ts : List Token} {t : Tree Label} (h : Derives .nameList ts t) :
    ∃ x ks, x.type = .identifier ∧ ts = x :: ks ∧
      (ks = [] ∨ ∃ j js, ks = j :: js ∧ j.type = .symbol .comma) ∧
      ∀ rest, Stops .nameList rest → (Parser.nameList (nameLeaf x)).Reads ks rest t := by
  cases h with
  | only hm => exact nomatch hm
  | left hop => exact nomatch hop
  | @singleName x hx =>
    -- what follows a single name is no comma, and the loop takes no round
    refine ⟨x, [], hx, rfl, .inl rfl, fun rest hstops => ?_⟩
    have hend : headType rest ≠ .symbol .comma := hstops.headType_ne (by decide)
    exact .bind_pure (reads_separated (S := fun _ => True) (fun _ _ _ => trivial) _ []
      ⟨nofun, nofun⟩ trivial hend)
  | @names x items hx hne hseps hitems =>
    obtain ⟨i, items, rfl⟩ := List.exists_cons_of_ne_nil hne
    refine ⟨x, separated (i :: items), hx, rfl,
      .inr ⟨i.1, _, rfl, hseps i List.mem_cons_self⟩, fun rest hstops => ?_⟩
    have hend : headType rest ≠ .symbol .comma := hstops.headType_ne (by decide)
    refine .bind_pure (f := Parser.gathered .names (nameLeaf x)) (reads_separated
      (S := fun _ => True) (fun _ _ _ => trivial) _ _ ⟨hseps, fun i hi rest _ => ?_⟩ trivial hend)
    obtain ⟨y, hy, hname⟩ := hitems i hi
    rw [hname]
    exact reads_name hy rest

/-- A parameter is read whatever is behind it. -/
theorem reads_parameter {ts : List Token} {t : Tree Label} (h : Derives .parameter ts t)
    (rest : List Token) : Parser.parameter.Reads ts rest t := by
  cases h with
  | only hm => exact nomatch hm
  | left hop => exact nomatch hop
  | parameterName hx => exact .bind_cons (.accept? hx) (.pure _)
  | parameterUnit h₁ h₂ =>
    refine .bind_nil (.accept?_none (headType_cons_ne h₁ (by decide) _)) ?_
    exact .bind_cons (.require h₁) (.bind_cons (.accept? h₂) (.pure _))
  | parameterNames h₁ hts h₂ =>
    obtain ⟨x, ks, hx, rfl, -, hks⟩ := hts.nameList_inv
    refine .bind_nil (.accept?_none (headType_cons_ne h₁ (by decide) _)) ?_
    refine .bind_cons (.require h₁) ?_
    refine .bind_nil (.accept?_none (headType_cons_ne hx (by decide) _)) ?_
    refine .bind_cons (reads_name hx _) (.bind (hks _ (stops_cons h₂ (by decide) _)) ?_)
    exact .bind_cons (.keeping _ (.require h₂)) (.pure _)

/-- Parameters are read up to a token that starts none. -/
theorem reads_parameters (first : Tree Label) {vs : List Phrase}
    (hvs : ∀ v ∈ vs, Derives .parameter v.tokens v.tree) {k : Token} {tt : TokenType}
    (hk : k.type = tt) (htt : tt ∉ Nonterminal.starts .parameter) (ks : List Token) :
    (Parser.many Parser.parameterStart Parser.parameter first).Reads (joined vs) (k :: ks)
      (vs.map Phrase.tree) := by
  refine reads_many first vs (fun v hv => reads_parameter (hvs v hv)) (fun v hv => ?_) ?_
  · obtain ⟨j, js, hjs, hj⟩ := (hvs v hv).exists_cons
    exact ⟨j, js, hjs, contains_parameterStart.2 hj⟩
  · rw [Parser.headType_cons, hk]
    exact Bool.eq_false_iff.2 (mt contains_parameterStart.1 htt)

/-! ### Expressions -/

section

variable {self : Goal → Parser (Tree Label)} {N : Nat} (hself : IsComplete self N)
include hself

/-- An operand is a leaf, or starts with a parenthesis, behind which an expression is read up to its
    end. -/
theorem complete_operand : Complete (Parser.operand self) .operand (N + 1) := by
  intro ts t h hN rest _
  cases h with
  | only hm => exact nomatch hm
  | left hop => exact nomatch hop
  | @leaf k kind hk =>
    intro expected
    have hleaf : Parser.leaf? (Cursor.mk ([k] ++ rest) expected).current.lexeme =
        some (kind, k.lexeme.text?) := Parser.leaf?_eq_some.2 ⟨hk, rfl⟩
    exact ⟨.empty, Parser.operand_of_leaf self hleaf⟩
  | @parenthesized k₁ k₂ ts t h₁ hts h₂ =>
    have hread : (Parser.parenthesized self).Reads (k₁ :: (ts ++ [k₂])) rest t := by
      simp only [List.length_cons, List.length_append] at hN
      refine .bind_cons (.accept? h₁) (.bind ?_ (.bind_cons (.keeping _ (.require h₂)) (.pure t)))
      exact hself .expression ts t hts (by omega) _ (stops_cons h₂ (by decide) _)
    intro expected
    rw [Parser.operand_of_none self]
    · exact hread expected
    · -- a parenthesis is no leaf
      refine Option.eq_none_iff_forall_ne_some.2 fun l hl => ?_
      have hleaf : (k₁.type, l.1) ∈ leafTokens := (Parser.leaf?_eq_some.1 hl).1
      rw [h₁] at hleaf
      simp [leafTokens] at hleaf

/-- Operands are read as long as the next token starts one. -/
theorem complete_application : Complete (Parser.application self) .application (N + 1) := by
  have hoperand := complete_operand hself
  refine complete_iterate (m := .operand) (by decide) (fun ts t h hN => ?_) (fun rest t hstops => ?_)
  · cases h with
    | only hm h =>
      cases hm
      exact .inl (hoperand ts t h hN)
    | left hop => exact nomatch hop
    | @gamma ls rs l r hl hr =>
      obtain ⟨k, ks, rfl, hk⟩ := hr.exists_cons
      -- the loop goes on, because an operand starts with the next token
      refine .inr ⟨ls, k, ks, l, rfl, hl, List.not_mem_nil, fun rest hstops => ?_⟩
      rw [List.length_append] at hN
      refine .bind_nil (.startsWith _) ?_
      rw [List.cons_append, Parser.headType_cons, contains_operandStart.2 hk]
      exact .bind_pure (.keeping _ (hoperand _ r hr (by omega) rest hstops))
  · -- what cannot continue an application starts no operand
    have hend : headType rest ∉ operandStarts := fun hmem =>
      hstops (List.mem_append_left _ hmem)
    refine .bind_nil (.startsWith _) ?_
    rw [List.nil_append, Bool.eq_false_iff.2 (mt contains_operandStart.1 hend)]
    exact .pure none

/-- An application goes on with a name wherever there is an `@`. -/
theorem complete_applicationByName :
    Complete (Parser.applicationByName self) .applicationByName (N + 1) := by
  have happlication := complete_application hself
  refine complete_iterate (m := .application) (by decide) (fun ts t h hN => ?_)
    (fun rest t hstops => ?_)
  · cases h with
    | only hm h =>
      cases hm
      exact .inl (happlication ts t h hN)
    | left hop => exact nomatch hop
    | @atName k f ls rs l r hl hk hf hr =>
      refine .inr ⟨ls, k, f :: rs, l, rfl, hl, hk ▸ by decide, fun rest hstops => ?_⟩
      simp only [List.length_append, List.length_cons] at hN
      refine .bind_cons (.accept? hk) (.bind_cons (.keeping _ (reads_name hf _)) (.bind_pure ?_))
      exact .keeping _ (happlication rs r hr (by omega) rest hstops)
  · exact .bind_nil (.accept?_none (hstops.headType_ne (by decide))) (.pure none)

/-- A power goes on wherever there is a `**`, and groups from the right. -/
theorem complete_power : Complete (Parser.power self) .power (N + 1) := by
  have hbase := complete_applicationByName hself
  refine complete_rightNested (m := .applicationByName) (by decide) (by decide) (by decide)
    hbase fun ts t h => ?_
  cases h with
  | only hm h =>
    cases hm
    exact .inl h
  | left hop => exact nomatch hop
  | power hl hk hr => exact .inr ⟨_, _, _, _, _, rfl, rfl, hl, hk, hr⟩

/-- Products are a chain of powers. -/
theorem complete_product : Complete (Parser.product self) .product (N + 1) :=
  complete_chain (n := .product) (by decide) rfl (complete_power hself)

/-- A sum may start with a sign, and goes on with products. -/
theorem complete_sum : Complete (Parser.sum self) .sum (N + 1) := by
  have hproduct := complete_product hself
  refine complete_leftNested (n := .sum) rfl hproduct fun ts t h hN => ?_
  cases h with
  | left hop hm hl hk hr =>
    cases hm
    exact .inr ⟨_, _, _, _, _, _, _, rfl, rfl, hop, hl, hk, hr⟩
  | only hm h =>
    cases hm
    refine .inl fun rest hstops => ?_
    -- neither sign stands in front of a product
    refine .bind_nil (.accept?_none (h.headType_ne (by decide) rest)) ?_
    refine .bind_nil (.accept?_none (h.headType_ne (by decide) rest)) ?_
    exact hproduct ts t h hN rest hstops
  | plus hk h =>
    rw [List.length_cons] at hN
    refine .inl fun rest hstops => .bind_cons (.accept? hk) ?_
    exact hproduct _ t h (by omega) rest hstops
  | minus hk h =>
    rw [List.length_cons] at hN
    refine .inl fun rest hstops => ?_
    refine .bind_nil (.accept?_none (headType_cons_ne hk (by decide) _)) ?_
    exact .bind_cons (.accept? hk) (.bind_pure (hproduct _ _ h (by omega) rest hstops))

/-- A comparison has one operator or none. -/
theorem complete_comparison : Complete (Parser.comparison self) .comparison (N + 1) := by
  have hsum := complete_sum hself
  intro ts t h hN rest hstops
  cases h with
  | left hop => exact nomatch hop
  | only hm h =>
    cases hm
    have hnone : ∀ i ∈ comparisonOperators, headType rest ≠ .symbol i.1 := fun i hi =>
      hstops.headType_ne (comparisonOperators_extensions i hi).1
    rw [← List.append_nil ts]
    refine .bind (hsum ts t h hN _ (hstops.mono (by decide))) ?_
    exact .bind_nil (.oneOf?_none hnone) (.pure t)
  | @comparison op kind k ls rs l r hop hl hk hr =>
    simp only [List.length_append, List.length_cons] at hN
    have hsep := (comparisonOperators_extensions _ hop).2
    refine .bind (hsum ls l hl (by omega) _ (stops_cons hk hsep _)) ?_
    refine .bind_cons (.oneOf? (by decide) hop hk) (.bind_pure (.keeping _ ?_))
    exact hsum rs r hr (by omega) rest (hstops.mono (by decide))

/-- A negation starts with `not`, and is a comparison otherwise. -/
theorem complete_negation : Complete (Parser.negation self) .negation (N + 1) := by
  have hcomparison := complete_comparison hself
  intro ts t h hN rest hstops
  cases h with
  | left hop => exact nomatch hop
  | only hm h =>
    cases hm
    refine .bind_nil (.accept?_none (h.headType_ne (by decide) rest)) ?_
    exact hcomparison ts t h hN rest hstops
  | not hk h =>
    rw [List.length_cons] at hN
    exact .bind_cons (.accept? hk) (.bind_pure (hcomparison _ _ h (by omega) rest hstops))

/-- Conjunctions are a chain of negations. -/
theorem complete_conjunction : Complete (Parser.conjunction self) .conjunction (N + 1) :=
  complete_chain (n := .conjunction) (by decide) rfl (complete_negation hself)

/-- Disjunctions are a chain of conjunctions. -/
theorem complete_disjunction : Complete (Parser.disjunction self) .disjunction (N + 1) :=
  complete_chain (n := .disjunction) (by decide) rfl (complete_conjunction hself)

/-- A conditional has both branches or is a disjunction. -/
theorem complete_conditional : Complete (Parser.conditional self) .conditional (N + 1) := by
  have hdisjunction := complete_disjunction hself
  intro ts t h hN rest hstops
  cases h with
  | left hop => exact nomatch hop
  | only hm h =>
    cases hm
    rw [← List.append_nil ts]
    refine .bind (hdisjunction ts t h hN _ (hstops.mono (by decide))) ?_
    exact .bind_nil (.accept?_none (hstops.headType_ne (by decide))) (.pure t)
  | @conditional k₁ k₂ cs ts es c t e hc h₁ ht h₂ he =>
    simp only [List.length_append, List.length_cons] at hN
    refine .bind (hdisjunction cs c hc (by omega) _ (stops_cons h₁ (by decide) _)) ?_
    have hfirst := hself .branch ts t ht (by omega) _ (stops_cons h₂ (by decide) (es ++ rest))
    refine .bind_cons (.accept? h₁) (.bind (.keeping _ hfirst) ?_)
    refine .bind_cons (.keeping _ (.require h₂)) (.bind_pure (.keeping _ ?_))
    exact hself .branch es e he (by omega) rest hstops

/-- Augmentations are a chain of conditionals. -/
theorem complete_augmentation : Complete (Parser.augmentation self) .augmentation (N + 1) :=
  complete_chain (n := .augmentation) (by decide) rfl (complete_conditional hself)

/-- A tuple goes on as long as there are commas. -/
theorem complete_tuple : Complete (Parser.tuple self) .tuple (N + 1) := by
  have haugmentation := complete_augmentation hself
  intro ts t h hN rest hstops
  have hend : headType rest ≠ .symbol .comma := hstops.headType_ne (by decide)
  cases h with
  | left hop => exact nomatch hop
  | only hm h =>
    cases hm
    have := haugmentation.gathers (by decide) (Parser.gathered .tau) h [] ⟨nofun, nofun⟩
      (by simpa using hN) (hstops.mono (by decide)) hend
    rwa [separated_nil, List.append_nil] at this
  | @tau ts t items h hne hseps hitems =>
    obtain ⟨i, items, rfl⟩ := List.exists_cons_of_ne_nil hne
    exact haugmentation.gathers (by decide) (Parser.gathered .tau) h _ ⟨hseps, hitems⟩ hN
      (hstops.mono (by decide)) hend

/-! ### Definitions -/

/-- A definition that starts with a name is an equation if a comma or `=` comes next, and a function
    form otherwise. -/
theorem complete_basicDefinition : Complete (Parser.basicDefinition self) .basic (N + 1) := by
  intro ts t h hN rest hstops
  cases h with
  | only hm => exact nomatch hm
  | left hop => exact nomatch hop
  | @parenthesizedDefinition k₁ k₂ ts t h₁ hts h₂ =>
    simp only [List.length_cons, List.length_append] at hN
    refine .bind_cons (.accept? h₁) (.bind ?_ (.bind_cons (.keeping _ (.require h₂)) (.pure t)))
    exact hself .definition ts t hts (by omega) _ (stops_cons h₂ (by decide) _)
  | @equation k xs es x e hxs hk he =>
    obtain ⟨y, ks, hy, rfl, hcomma, hks⟩ := hxs.nameList_inv
    simp only [List.length_append, List.length_cons] at hN
    refine .bind_nil (.accept?_none (headType_cons_ne hy (by decide) _)) ?_
    refine .bind_cons (reads_name hy _) (.bind_nil (reads_many _ [] nofun nofun ?_) ?_)
    · -- behind the first name is a comma or the equals sign, and so no parameter
      refine Bool.eq_false_iff.2 (mt contains_parameterStart.1 ?_)
      rcases hcomma with rfl | ⟨j, js, rfl, hj⟩
      · change k.type ∉ Nonterminal.starts .parameter
        rw [hk]
        decide
      · change j.type ∉ Nonterminal.starts .parameter
        rw [hj]
        decide
    · refine .bind (hks _ (stops_cons hk (by decide) _)) ?_
      refine .bind_cons (.keeping _ (.require hk)) (.bind_pure (.keeping _ ?_))
      exact hself .expression es e he (by omega) rest hstops
  | @functionForm f k es e vs hf hne hvs hk he =>
    obtain ⟨v, vs, rfl⟩ := List.exists_cons_of_ne_nil hne
    simp only [List.length_append, List.length_cons] at hN
    refine .bind_nil (.accept?_none (headType_cons_ne hf (by decide) _)) ?_
    refine .bind_cons (reads_name hf _) (.bind (reads_parameters _ hvs hk (by decide) _) ?_)
    refine .bind_cons (.keeping _ (.require hk)) (.bind_pure (.keeping _ ?_))
    exact hself .expression es e he (by omega) rest hstops

/-- A recursive definition starts with `rec`. -/
theorem complete_recursiveDefinition :
    Complete (Parser.recursiveDefinition self) .recursive (N + 1) := by
  have hbasic := complete_basicDefinition hself
  intro ts t h hN rest hstops
  cases h with
  | left hop => exact nomatch hop
  | only hm h =>
    cases hm
    refine .bind_nil (.accept?_none (h.headType_ne (by decide) rest)) ?_
    exact hbasic ts t h hN rest hstops
  | recursive hk h =>
    rw [List.length_cons] at hN
    exact .bind_cons (.accept? hk) (.bind_pure (hbasic _ _ h (by omega) rest hstops))

/-- Simultaneous definitions go on as long as there is an `and`. -/
theorem complete_simultaneousDefinition :
    Complete (Parser.simultaneousDefinition self) .simultaneous (N + 1) := by
  have hrecursive := complete_recursiveDefinition hself
  intro ts t h hN rest hstops
  have hend : headType rest ≠ .symbol .andKw := hstops.headType_ne (by decide)
  cases h with
  | left hop => exact nomatch hop
  | only hm h =>
    cases hm
    have := hrecursive.gathers (by decide) (Parser.gathered .simultaneous) h []
      ⟨nofun, nofun⟩ (by simpa using hN) (hstops.mono (by decide)) hend
    rwa [separated_nil, List.append_nil] at this
  | @simultaneous ts t items h hne hseps hitems =>
    obtain ⟨i, items, rfl⟩ := List.exists_cons_of_ne_nil hne
    exact hrecursive.gathers (by decide) (Parser.gathered .simultaneous) h _ ⟨hseps, hitems⟩ hN
      (hstops.mono (by decide)) hend

/-- Definitions with an inner one go on behind `within`, and group from the right. -/
theorem complete_definition : Complete (Parser.definition self) .definition (N + 1) := by
  refine complete_rightNested (m := .simultaneous) (by decide) (by decide) (by decide)
    (complete_simultaneousDefinition hself) fun ts t h => ?_
  cases h with
  | only hm h =>
    cases hm
    exact .inl h
  | left hop => exact nomatch hop
  | within hl hk hr => exact .inr ⟨_, _, _, _, _, rfl, rfl, hl, hk, hr⟩

/-- An expression has at most one `where`, whose definitions are read as far as possible. -/
theorem complete_whereClause : Complete (Parser.whereClause self) .whereClause (N + 1) := by
  have htuple := complete_tuple hself
  intro ts t h hN rest hstops
  cases h with
  | left hop => exact nomatch hop
  | only hm h =>
    cases hm
    rw [← List.append_nil ts]
    refine .bind (htuple ts t h hN _ (hstops.mono (by decide))) ?_
    exact .bind_nil (.accept?_none (hstops.headType_ne (by decide))) (.pure t)
  | @whereIn k es ds e d he hk hd =>
    simp only [List.length_append, List.length_cons] at hN
    refine .bind (htuple es e he (by omega) _ (stops_cons hk (by decide) _)) ?_
    refine .bind_cons (.accept? hk) (.bind_pure (.keeping _ ?_))
    exact complete_recursiveDefinition hself ds d hd (by omega) rest hstops

/-- An expression starts with `let` or `fn`, or has a `where` clause or none. -/
theorem complete_expression : Complete (Parser.expression self) .expression (N + 1) := by
  intro ts t h hN rest hstops
  cases h with
  | left hop => exact nomatch hop
  | only hm h =>
    cases hm
    -- neither `let` nor `fn` is in front
    refine .bind_nil (.accept?_none (h.headType_ne (by decide) rest)) ?_
    refine .bind_nil (.accept?_none (h.headType_ne (by decide) rest)) ?_
    exact complete_whereClause hself ts t h hN rest hstops
  | @letIn k₁ k₂ ds es d e h₁ hd h₂ he =>
    simp only [List.length_append, List.length_cons] at hN
    -- the definition stops at `in`, which cannot continue it
    have hbound := hself .definition ds d hd (by omega) _ (stops_cons h₂ (by decide) (es ++ rest))
    refine .bind_cons (.accept? h₁) (.bind hbound ?_)
    refine .bind_cons (.keeping _ (.require h₂)) (.bind_pure (.keeping _ ?_))
    exact hself .expression es e he (by omega) rest hstops
  | @lambda k₁ k₂ es e vs h₁ hne hvs h₂ he =>
    obtain ⟨v, vs, rfl⟩ := List.exists_cons_of_ne_nil hne
    obtain ⟨hv, hvs⟩ := List.forall_mem_cons.1 hvs
    simp only [List.length_append, List.length_cons] at hN
    refine .bind_nil (.accept?_none (headType_cons_ne h₁ (by decide) _)) ?_
    rw [joined_cons, List.append_assoc]
    refine .bind_cons (.accept? h₁) (.bind (reads_parameter hv _) ?_)
    refine .bind (reads_parameters _ hvs h₂ (by decide) _) ?_
    refine .bind_cons (.keeping _ (.require h₂)) (.bind_pure (.keeping _ ?_))
    exact hself .expression es e he (by omega) rest hstops

/-- The parsers for the goals are complete for sentences that are longer by one token than those
    for which the goals within them are. -/
theorem isComplete_goal : IsComplete (Parser.goal self) (N + 1)
  | .expression => complete_expression hself
  | .branch => complete_conditional hself
  | .definition => complete_definition hself

end

/-! ### Programs -/

/-- A goal at depth `n` reads every sentence of at most `n` tokens. -/
theorem isComplete_nested (n : Nat) : IsComplete (Parser.nested n) n := by
  induction n with
  | zero => exact fun g ts t h hN => absurd h.length_pos (Nat.not_lt.2 hN)
  | succ n ih => exact isComplete_goal ih

end Rpal.Grammar
