import Rpal.Parser.Productions
import Mathlib

/-!
# The grammar

The grammar of the language as a relation between token sequences and trees, one constructor per
production. It says nothing about how a sentence is read: left-recursive productions are written as
such, and nothing is said about lookahead.

A production whose last alternative is a single nonterminal has no constructor of its own for it:
`Nonterminal.alternative?` lists these, and `Derives.only` stands for all of them. In the same way
`Derives.left` stands for the productions of all operators that group from the left.

## Key results

- `Derives.exists_cons`: a sentence is not empty, and its first token has one of the types in
  `Nonterminal.starts`
- `Derives.ne_endOfInput`: the end of the input is not part of a sentence
-/

namespace Rpal.Grammar

/-- The nonterminals, from the loosest to the tightest, first those of expressions, then those of
    definitions. -/
inductive Nonterminal where
  /-- `E` -/
  | expression
  /-- `Ew` -/
  | whereClause
  /-- `T` -/
  | tuple
  /-- `Ta` -/
  | augmentation
  /-- `Tc` -/
  | conditional
  /-- `B` -/
  | disjunction
  /-- `Bt` -/
  | conjunction
  /-- `Bs` -/
  | negation
  /-- `Bp` -/
  | comparison
  /-- `A` -/
  | sum
  /-- `At` -/
  | product
  /-- `Af` -/
  | power
  /-- `Ap` -/
  | applicationByName
  /-- `R` -/
  | application
  /-- `Rn` -/
  | operand
  /-- `D` -/
  | definition
  /-- `Da` -/
  | simultaneous
  /-- `Dr` -/
  | recursive
  /-- `Db` -/
  | basic
  /-- `Vb` -/
  | parameter
  /-- `Vl` -/
  | nameList
deriving DecidableEq

namespace Nonterminal

/-- The nonterminal that is the last alternative of a production. -/
def alternative? : Nonterminal → Option Nonterminal
  | expression => some whereClause
  | whereClause => some tuple
  | tuple => some augmentation
  | augmentation => some conditional
  | conditional => some disjunction
  | disjunction => some conjunction
  | conjunction => some negation
  | negation => some comparison
  | comparison => some sum
  | sum => some product
  | product => some power
  | power => some applicationByName
  | applicationByName => some application
  | application => some operand
  | definition => some simultaneous
  | simultaneous => some recursive
  | recursive => some basic
  | operand | basic | parameter | nameList => none

/-- The operators that group operands of the last alternative from the left, with the constructs
    that they stand for. -/
def leftOperators : Nonterminal → List (Symbol × Kind)
  | augmentation => [(.augKw, .binary .aug)]
  | disjunction => [(.orKw, .binary (.logical .or))]
  | conjunction => [(.ampersand, .binary (.logical .and))]
  | sum => [(.plus, .binary (.integer .plus)), (.minus, .binary (.integer .minus))]
  | product => [(.star, .binary (.integer .times)), (.slash, .binary (.integer .divide))]
  | _ => []

end Nonterminal

/-- The operators between two sums, with the comparisons that they stand for. -/
def comparisonOperators : List (Symbol × Kind) :=
  [(.grKw, .binary (.integer .gr)), (.greater, .binary (.integer .gr)),
   (.geKw, .binary (.integer .ge)), (.greaterEq, .binary (.integer .ge)),
   (.lsKw, .binary (.integer .ls)), (.less, .binary (.integer .ls)),
   (.leKw, .binary (.integer .le)), (.lessEq, .binary (.integer .le)),
   (.eqKw, .binary (.equality .eq)), (.neKw, .binary (.equality .ne))]

/-- The tokens that are operands by themselves, with the constructs that they stand for. -/
def leafTokens : List (TokenType × Kind) :=
  [(.identifier, .identifier), (.integer, .integer), (.string, .string),
   (.symbol .trueKw, .truth true), (.symbol .falseKw, .truth false),
   (.symbol .nilKw, .nil), (.symbol .dummyKw, .dummy)]

/-- A token as a leaf. -/
def leaf (kind : Kind) (t : Token) : Tree Label :=
  .leaf { kind, text := t.lexeme.text?, line := t.line }

/-- A name as a leaf. -/
abbrev nameLeaf (t : Token) : Tree Label :=
  leaf .identifier t

/-- A token sequence with its tree. -/
structure Phrase where
  tokens : List Token
  tree : Tree Label

/-- The phrase is a single name. -/
def Phrase.IsName (p : Phrase) : Prop :=
  ∃ x : Token, x.type = .identifier ∧ p = ⟨[x], nameLeaf x⟩

/-- The tokens of phrases, one phrase after the other. -/
def joined (phrases : List Phrase) : List Token :=
  phrases.flatMap Phrase.tokens

/-- The tokens of phrases, each behind its separator. -/
def separated (items : List (Token × Phrase)) : List Token :=
  items.flatMap fun i => i.1 :: i.2.tokens

/-- The trees of phrases behind separators. -/
def trees (items : List (Token × Phrase)) : List (Tree Label) :=
  items.map (·.2.tree)

@[simp] theorem joined_nil : joined [] = [] := rfl

@[simp] theorem joined_cons (v : Phrase) (vs : List Phrase) :
    joined (v :: vs) = v.tokens ++ joined vs := rfl

@[simp] theorem separated_nil : separated [] = [] := rfl

@[simp] theorem separated_cons (i : Token × Phrase) (items : List (Token × Phrase)) :
    separated (i :: items) = i.1 :: (i.2.tokens ++ separated items) := rfl

@[simp] theorem trees_nil : trees [] = [] := rfl

@[simp] theorem trees_cons (i : Token × Phrase) (items : List (Token × Phrase)) :
    trees (i :: items) = i.2.tree :: trees items := rfl

open Nonterminal in
/-- `Derives n ts t`: the nonterminal `n` derives the tokens `ts`, and their tree is `t`. -/
inductive Derives : Nonterminal → List Token → Tree Label → Prop where
  /-- The last alternative of a production, where that is a single nonterminal. -/
  | only {n m ts t} : n.alternative? = some m → Derives m ts t → Derives n ts t
  /-- `Ta → Ta 'aug' Tc`, `B → B 'or' Bt`, `Bt → Bt '&' Bs`, `A → A '+' At`, `A → A '-' At`,
      `At → At '*' Af`, `At → At '/' Af` -/
  | left {n m op kind k ls rs l r} : (op, kind) ∈ n.leftOperators → n.alternative? = some m →
      Derives n ls l → k.type = .symbol op → Derives m rs r →
      Derives n (ls ++ k :: rs) (.branch kind [l, r])
  /-- `E → 'let' D 'in' E` -/
  | letIn {k₁ k₂ ds es d e} : k₁.type = .symbol .letKw → Derives definition ds d →
      k₂.type = .symbol .inKw → Derives expression es e →
      Derives expression (k₁ :: (ds ++ k₂ :: es)) (.branch .letIn [d, e])
  /-- `E → 'fn' Vb+ '.' E` -/
  | lambda {k₁ k₂ es e} {vs : List Phrase} : k₁.type = .symbol .fnKw → vs ≠ [] →
      (∀ v ∈ vs, Derives parameter v.tokens v.tree) → k₂.type = .symbol .dot →
      Derives expression es e →
      Derives expression (k₁ :: (joined vs ++ k₂ :: es))
        (.branch .lambda (vs.map Phrase.tree ++ [e]))
  /-- `Ew → T 'where' Dr` -/
  | whereIn {k es ds e d} : Derives tuple es e → k.type = .symbol .whereKw →
      Derives recursive ds d →
      Derives whereClause (es ++ k :: ds) (.branch .whereIn [e, d])
  /-- `T → Ta (',' Ta)+` -/
  | tau {ts t} {items : List (Token × Phrase)} : Derives augmentation ts t → items ≠ [] →
      (∀ i ∈ items, i.1.type = .symbol .comma) →
      (∀ i ∈ items, Derives augmentation i.2.tokens i.2.tree) →
      Derives tuple (ts ++ separated items) (.branch .tau (t :: trees items))
  /-- `Tc → B '->' Tc '|' Tc` -/
  | conditional {k₁ k₂ cs ts es c t e} : Derives disjunction cs c → k₁.type = .symbol .arrow →
      Derives conditional ts t → k₂.type = .symbol .bar → Derives conditional es e →
      Derives conditional (cs ++ k₁ :: (ts ++ k₂ :: es)) (.branch .conditional [c, t, e])
  /-- `Bs → 'not' Bp` -/
  | not {k ts t} : k.type = .symbol .notKw → Derives comparison ts t →
      Derives negation (k :: ts) (.branch .not [t])
  /-- `Bp → A ('gr' | '>' | 'ge' | '>=' | 'ls' | '<' | 'le' | '<=' | 'eq' | 'ne') A` -/
  | comparison {op kind k ls rs l r} : (op, kind) ∈ comparisonOperators → Derives sum ls l →
      k.type = .symbol op → Derives sum rs r →
      Derives comparison (ls ++ k :: rs) (.branch kind [l, r])
  /-- `A → '+' At` -/
  | plus {k ts t} : k.type = .symbol .plus → Derives product ts t → Derives sum (k :: ts) t
  /-- `A → '-' At` -/
  | minus {k ts t} : k.type = .symbol .minus → Derives product ts t →
      Derives sum (k :: ts) (.branch .neg [t])
  /-- `Af → Ap '**' Af` -/
  | power {k ls rs l r} : Derives applicationByName ls l → k.type = .symbol .power →
      Derives power rs r → Derives power (ls ++ k :: rs) (.branch (.binary (.integer .power)) [l, r])
  /-- `Ap → Ap '@' ident R` -/
  | atName {k f ls rs l r} : Derives applicationByName ls l → k.type = .symbol .atSign →
      f.type = .identifier → Derives application rs r →
      Derives applicationByName (ls ++ k :: f :: rs) (.branch .atName [l, nameLeaf f, r])
  /-- `R → R Rn` -/
  | gamma {ls rs l r} : Derives application ls l → Derives operand rs r →
      Derives application (ls ++ rs) (.branch .gamma [l, r])
  /-- `Rn → ident | integer | string | 'true' | 'false' | 'nil' | 'dummy'` -/
  | leaf {k kind} : (k.type, kind) ∈ leafTokens → Derives operand [k] (leaf kind k)
  /-- `Rn → '(' E ')'` -/
  | parenthesized {k₁ k₂ ts t} : k₁.type = .symbol .lparen → Derives expression ts t →
      k₂.type = .symbol .rparen → Derives operand (k₁ :: (ts ++ [k₂])) t
  /-- `D → Da 'within' D` -/
  | within {k ls rs l r} : Derives simultaneous ls l → k.type = .symbol .withinKw →
      Derives definition rs r → Derives definition (ls ++ k :: rs) (.branch .within [l, r])
  /-- `Da → Dr ('and' Dr)+` -/
  | simultaneous {ts t} {items : List (Token × Phrase)} : Derives recursive ts t → items ≠ [] →
      (∀ i ∈ items, i.1.type = .symbol .andKw) →
      (∀ i ∈ items, Derives recursive i.2.tokens i.2.tree) →
      Derives simultaneous (ts ++ separated items) (.branch .simultaneous (t :: trees items))
  /-- `Dr → 'rec' Db` -/
  | recursive {k ts t} : k.type = .symbol .recKw → Derives basic ts t →
      Derives recursive (k :: ts) (.branch .recursive [t])
  /-- `Db → Vl '=' E` -/
  | equation {k xs es x e} : Derives nameList xs x → k.type = .symbol .equals →
      Derives expression es e → Derives basic (xs ++ k :: es) (.branch .equation [x, e])
  /-- `Db → ident Vb+ '=' E` -/
  | functionForm {f k es e} {vs : List Phrase} : f.type = .identifier → vs ≠ [] →
      (∀ v ∈ vs, Derives parameter v.tokens v.tree) → k.type = .symbol .equals →
      Derives expression es e →
      Derives basic (f :: (joined vs ++ k :: es))
        (.branch .functionForm (nameLeaf f :: vs.map Phrase.tree ++ [e]))
  /-- `Db → '(' D ')'` -/
  | parenthesizedDefinition {k₁ k₂ ts t} : k₁.type = .symbol .lparen → Derives definition ts t →
      k₂.type = .symbol .rparen → Derives basic (k₁ :: (ts ++ [k₂])) t
  /-- `Vb → ident` -/
  | parameterName {x} : x.type = .identifier → Derives parameter [x] (nameLeaf x)
  /-- `Vb → '(' Vl ')'` -/
  | parameterNames {k₁ k₂ ts t} : k₁.type = .symbol .lparen → Derives nameList ts t →
      k₂.type = .symbol .rparen → Derives parameter (k₁ :: (ts ++ [k₂])) t
  /-- `Vb → '(' ')'` -/
  | parameterUnit {k₁ k₂} : k₁.type = .symbol .lparen → k₂.type = .symbol .rparen →
      Derives parameter [k₁, k₂] (.leaf { kind := .unit, text := none, line := k₁.line })
  /-- `Vl → ident` -/
  | singleName {x} : x.type = .identifier → Derives nameList [x] (nameLeaf x)
  /-- `Vl → ident (',' ident)+` -/
  | names {x} {items : List (Token × Phrase)} : x.type = .identifier → items ≠ [] →
      (∀ i ∈ items, i.1.type = .symbol .comma) → (∀ i ∈ items, i.2.IsName) →
      Derives nameList (x :: separated items) (.branch .names (nameLeaf x :: trees items))

/-! ### First tokens -/

/-- The tokens that an operand starts with. -/
def operandStarts : List TokenType :=
  .symbol .lparen :: leafTokens.map Prod.fst

/-- The tokens that a phrase of the nonterminal starts with. -/
def Nonterminal.starts : Nonterminal → List TokenType
  | operand | application | applicationByName | power | product => operandStarts
  | sum | comparison => .symbol .plus :: .symbol .minus :: operandStarts
  | negation | conjunction | disjunction | conditional | augmentation | tuple | whereClause =>
    .symbol .notKw :: .symbol .plus :: .symbol .minus :: operandStarts
  | expression =>
    .symbol .letKw :: .symbol .fnKw :: .symbol .notKw :: .symbol .plus :: .symbol .minus ::
      operandStarts
  | nameList => [.identifier]
  | basic | parameter => [.identifier, .symbol .lparen]
  | definition | simultaneous | recursive => [.symbol .recKw, .identifier, .symbol .lparen]

/-- What starts the last alternative of a production starts the production. -/
theorem Nonterminal.starts_alternative {n m : Nonterminal} (h : n.alternative? = some m) :
    m.starts ⊆ n.starts := by
  cases n <;> cases h <;> decide

/-- The parser's set of the tokens that start an operand. -/
theorem contains_operandStart {tt : TokenType} :
    Parser.operandStart.contains tt = true ↔ tt ∈ operandStarts := by
  simp only [Parser.operandStart, TokenSet.contains_ofList, List.contains_iff_mem, operandStarts,
    leafTokens]
  cases tt with
  | symbol s => cases s <;> decide
  | _ => decide

/-- The parser's set of the tokens that start a parameter. -/
theorem contains_parameterStart {tt : TokenType} :
    Parser.parameterStart.contains tt = true ↔ tt ∈ Nonterminal.starts .parameter := by
  simp only [Parser.parameterStart, TokenSet.contains_ofList, List.contains_iff_mem,
    Nonterminal.starts]

/-- A sentence has a first token, of a type that its nonterminal starts with. -/
theorem Derives.exists_cons {n : Nonterminal} {ts : List Token} {t : Tree Label}
    (h : Derives n ts t) : ∃ k ks, ts = k :: ks ∧ k.type ∈ n.starts := by
  induction h with
  | only hm _ ih =>
    obtain ⟨k, ks, rfl, hk⟩ := ih
    exact ⟨k, ks, rfl, Nonterminal.starts_alternative hm hk⟩
  | left _ _ _ _ _ ih | whereIn _ _ _ ih | tau _ _ _ _ ih | conditional _ _ _ _ _ ih
  | comparison _ _ _ _ ih | power _ _ _ ih | atName _ _ _ _ ih | gamma _ _ ih | within _ _ _ ih
  | simultaneous _ _ _ _ ih =>
    -- the phrase starts with one of a nonterminal with the same first tokens
    obtain ⟨k, ks, rfl, hk⟩ := ih
    exact ⟨k, _, rfl, hk⟩
  | equation _ _ _ ih =>
    obtain ⟨k, ks, rfl, hk⟩ := ih
    exact ⟨k, _, rfl, List.mem_cons.2 (.inl (List.mem_singleton.1 hk))⟩
  | leaf hk => exact ⟨_, _, rfl, List.mem_cons_of_mem _ (List.mem_map_of_mem hk)⟩
  | letIn hk | lambda hk | not hk | plus hk | minus hk | parenthesized hk | recursive hk
  | functionForm hk | parenthesizedDefinition hk | parameterName hk | parameterNames hk
  | parameterUnit hk | singleName hk | names hk =>
    exact ⟨_, _, rfl, by rw [hk]; decide⟩

/-- A sentence is not empty. -/
theorem Derives.length_pos {n : Nonterminal} {ts : List Token} {t : Tree Label}
    (h : Derives n ts t) : 0 < ts.length := by
  obtain ⟨k, ks, rfl, -⟩ := h.exists_cons
  exact Nat.succ_pos _

/-! ### The end of the input -/

/-- No operator is the end of the input. -/
theorem Nonterminal.leftOperators_ne_endOfInput {n : Nonterminal} {op : Symbol} {kind : Kind}
    (h : (op, kind) ∈ n.leftOperators) : op ≠ .endOfInput := by
  rintro rfl
  cases n <;> simp [leftOperators] at h

/-- No comparison is the end of the input. -/
theorem ne_endOfInput_of_mem_comparisonOperators {op : Symbol} {kind : Kind}
    (h : (op, kind) ∈ comparisonOperators) : op ≠ .endOfInput := by
  rintro rfl
  simp [comparisonOperators] at h

/-- No operand is the end of the input. -/
theorem ne_endOfInput_of_mem_leafTokens {tt : TokenType} {kind : Kind}
    (h : (tt, kind) ∈ leafTokens) : tt ≠ .symbol .endOfInput := by
  rintro rfl
  simp [leafTokens] at h

/-- What holds of every token of every phrase holds of the tokens of all phrases. -/
theorem forall_mem_joined {vs : List Phrase} {p : Token → Prop} :
    (∀ k ∈ joined vs, p k) ↔ ∀ v ∈ vs, ∀ k ∈ v.tokens, p k := by
  simp only [joined, List.mem_flatMap]
  exact ⟨fun h v hv k hk => h k ⟨v, hv, hk⟩, fun h k ⟨v, hv, hk⟩ => h v hv k hk⟩

/-- What holds of every separator and of every token of every phrase holds of all tokens. -/
theorem forall_mem_separated {items : List (Token × Phrase)} {p : Token → Prop} :
    (∀ k ∈ separated items, p k) ↔ ∀ i ∈ items, p i.1 ∧ ∀ k ∈ i.2.tokens, p k := by
  simp only [separated, List.mem_flatMap]
  constructor
  · intro h i hi
    exact ⟨h _ ⟨i, hi, List.mem_cons_self⟩, fun k hk => h k ⟨i, hi, List.mem_cons_of_mem _ hk⟩⟩
  · rintro h k ⟨i, hi, hk⟩
    rcases List.mem_cons.1 hk with rfl | hk
    · exact (h i hi).1
    · exact (h i hi).2 k hk

/-- The end of the input is not part of a sentence. -/
theorem Derives.ne_endOfInput {n : Nonterminal} {ts : List Token} {t : Tree Label}
    (h : Derives n ts t) : ∀ k ∈ ts, k.type ≠ .symbol .endOfInput := by
  induction h with
  | only _ _ ih => exact ih
  | left hop _ _ hk _ ihl ihr =>
    have hne := Nonterminal.leftOperators_ne_endOfInput hop
    simpa [or_imp, forall_and, hk, hne] using ⟨ihl, ihr⟩
  | comparison hop _ hk _ ihl ihr =>
    have hne := ne_endOfInput_of_mem_comparisonOperators hop
    simpa [or_imp, forall_and, hk, hne] using ⟨ihl, ihr⟩
  | leaf hk =>
    have hne := ne_endOfInput_of_mem_leafTokens hk
    simpa using hne
  | names hx _ hsep hitems =>
    simp only [List.forall_mem_cons, forall_mem_separated, hx]
    refine ⟨nofun, fun i hi => ⟨by simp [hsep i hi], ?_⟩⟩
    obtain ⟨y, hy, hname⟩ := hitems i hi
    simp [hname, hy]
  | tau _ _ hsep _ iht ih =>
    simp only [List.forall_mem_append, forall_mem_separated]
    exact ⟨iht, fun i hi => ⟨by simp [hsep i hi], ih i hi⟩⟩
  | simultaneous _ _ hsep _ iht ih =>
    simp only [List.forall_mem_append, forall_mem_separated]
    exact ⟨iht, fun i hi => ⟨by simp [hsep i hi], ih i hi⟩⟩
  | lambda h₁ _ _ h₂ _ ihv ih =>
    simp only [List.forall_mem_cons, List.forall_mem_append, forall_mem_joined, h₁, h₂]
    exact ⟨nofun, ihv, nofun, ih⟩
  | functionForm h₁ _ _ h₂ _ ihv ih =>
    simp only [List.forall_mem_cons, List.forall_mem_append, forall_mem_joined, h₁, h₂]
    exact ⟨nofun, ihv, nofun, ih⟩
  -- the other constructs are fixed tokens around their parts
  | _ => simp_all [or_imp]

end Rpal.Grammar
