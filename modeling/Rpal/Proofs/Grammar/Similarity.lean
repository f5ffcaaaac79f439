import Rpal.Proofs.Grammar.Reading

/-!
# What a parse depends on

The parser looks at tokens only through their lexemes, apart from the lines that it puts into the
tree. So two inputs with similar tokens are parsed alike: a similarity says which tokens and which
trees correspond to each other, and is kept by everything that a parser makes of tokens and trees.

The goals within a production may be those of another parser, as long as these are alike on shorter
inputs. This is because a token is taken before each of them. So a goal at depth `n` never comes to
depth zero on an input of fewer than `n` tokens, and the bound on the depth decides nothing.

## Key results

- `Similarity.alike_goal`: productions are alike on inputs that are longer by one token
- `Similarity.ofTokens`: programs with similar tokens are parsed alike
- `nested_eq_nested`: any two depths beyond the length of the input give the same result
-/

namespace Rpal.Grammar

open Rpal.Parser (Goal)

/-- Which tokens and which trees correspond to each other. Only the lexeme of a token matters, and
    trees that are made in the same way correspond. -/
structure Similarity where
  token : Token → Token → Prop
  tree : Tree Label → Tree Label → Prop
  lexeme_eq : ∀ {k k'}, token k k' → k.lexeme = k'.lexeme
  missing : token .missing .missing
  leaf : ∀ {k k'}, token k k' → ∀ kind text,
    tree (.leaf { kind, text, line := k.line }) (.leaf { kind, text, line := k'.line })
  branch : ∀ {ts ts'}, List.Forall₂ tree ts ts' → ∀ kind, tree (.branch kind ts) (.branch kind ts')

namespace Similarity

variable (S : Similarity)

/-- The similarity of tokens and trees that are the same. -/
def same : Similarity where
  token k k' := k = k'
  tree t t' := t = t'
  lexeme_eq h := congrArg Token.lexeme h
  missing := rfl
  leaf h _ _ := by rw [h]
  branch h _ := congrArg _ (List.forall₂_eq_eq_eq ▸ h)

/-- The cursors stand before similar tokens, at which the same was looked for. -/
structure Cursors (c c' : Cursor) : Prop where
  rest : List.Forall₂ S.token c.rest c'.rest
  expected : c.expected = c'.expected

/-- The errors are about similar tokens, and similar trees were completed. -/
structure Errors (e e' : SyntaxError) : Prop where
  actual : S.token e.actual e'.actual
  expected : e.expected = e'.expected
  pending : List.Forall₂ S.tree e.pending e'.pending

/-- The outcomes of parsers correspond to each other, and not more than `n` tokens are left. -/
inductive Outcomes {α β : Type} (n : Nat) (V : α → β → Prop) :
    Except SyntaxError (α × Cursor) → Except SyntaxError (β × Cursor) → Prop where
  | ok {a b c c'} : V a b → S.Cursors c c' → c.rest.length ≤ n →
      Outcomes n V (.ok (a, c)) (.ok (b, c'))
  | error {e e'} : S.Errors e e' → Outcomes n V (.error e) (.error e')

/-- The parsers do alike on all similar inputs of less than `N` tokens, and leave no more tokens than
    they got. -/
def Alike {α β : Type} (N : Nat) (V : α → β → Prop) (p : Parser α) (q : Parser β) : Prop :=
  ∀ c c', S.Cursors c c' → c.rest.length < N → S.Outcomes c.rest.length V (p c) (q c')

variable {S} {α β γ δ : Type} {N : Nat} {V : α → β → Prop} {W : γ → δ → Prop}

/-- Similar cursors are at similar tokens. -/
theorem Cursors.current {c c' : Cursor} (h : S.Cursors c c') : S.token c.current c'.current := by
  obtain ⟨rest, expected⟩ := c
  obtain ⟨rest', expected'⟩ := c'
  cases h.rest with
  | nil => exact S.missing
  | cons hk _ => exact hk

/-- Similar cursors are at tokens of the same type. -/
theorem Cursors.type_eq {c c' : Cursor} (h : S.Cursors c c') : c.current.type = c'.current.type :=
  congrArg Lexeme.type (S.lexeme_eq h.current)

/-- Similar cursors stay similar when they go on. -/
theorem Cursors.advance {c c' : Cursor} (h : S.Cursors c c') : S.Cursors c.advance c'.advance := by
  obtain ⟨rest, expected⟩ := c
  obtain ⟨rest', expected'⟩ := c'
  cases h.rest with
  | nil => exact ⟨.nil, rfl⟩
  | cons _ hks => exact ⟨hks, rfl⟩

/-- The number of tokens that are left can be bounded by more. -/
theorem Outcomes.mono {n n' : Nat} (hn : n ≤ n') {r : Except SyntaxError (α × Cursor)}
    {r' : Except SyntaxError (β × Cursor)} (h : S.Outcomes n V r r') : S.Outcomes n' V r r' := by
  cases h with
  | ok hv hc hlen => exact .ok hv hc (Nat.le_trans hlen hn)
  | error he => exact .error he

/-- Forgetting the cursors, both parsers have results or both have errors. -/
theorem Outcomes.map_fst {n : Nat} {r : Except SyntaxError (α × Cursor)}
    {r' : Except SyntaxError (β × Cursor)} (h : S.Outcomes n V r r') :
    (∃ a b, r.map (·.1) = .ok a ∧ r'.map (·.1) = .ok b ∧ V a b) ∨
      ∃ e e', r.map (·.1) = .error e ∧ r'.map (·.1) = .error e' ∧ S.Errors e e' := by
  cases h with
  | ok hv _ _ => exact .inl ⟨_, _, rfl, rfl, hv⟩
  | error he => exact .inr ⟨_, _, rfl, rfl, he⟩

/-- Outcomes with the same tokens and trees are the same. -/
theorem Outcomes.eq {n : Nat} {r r' : Except SyntaxError (α × Cursor)}
    (h : same.Outcomes n Eq r r') : r = r' := by
  cases h with
  | @ok _ _ c c' hv hc _ =>
    obtain ⟨rest, expected⟩ := c
    obtain ⟨rest', expected'⟩ := c'
    obtain rfl : rest = rest' := List.forall₂_eq_eq_eq ▸ hc.rest
    obtain rfl : expected = expected' := hc.expected
    rw [hv]
  | @error e e' he =>
    obtain ⟨actual, expected, pending⟩ := e
    obtain ⟨actual', expected', pending'⟩ := e'
    obtain rfl : actual = actual' := he.actual
    obtain rfl : expected = expected' := he.expected
    obtain rfl : pending = pending' := List.forall₂_eq_eq_eq ▸ he.pending
    rfl

namespace Alike

/-- Related results are alike. -/
theorem pure {a : α} {b : β} (h : V a b) : S.Alike N V (Pure.pure a) (Pure.pure b) :=
  fun _ _ hc _ => .ok h hc (Nat.le_refl _)

/-- A parser behind another one gets no more tokens than that. -/
theorem bind {p : Parser α} {q : Parser β} {f : α → Parser γ} {g : β → Parser δ}
    (hpq : S.Alike N V p q) (hfg : ∀ a b, V a b → S.Alike N W (f a) (g b)) :
    S.Alike N W (p >>= f) (q >>= g) := by
  intro c c' hc hlen
  have h := hpq c c' hc hlen
  generalize hp : p c = r at h
  generalize hq : q c' = r' at h
  cases h with
  | ok hv hd hle =>
    rw [Parser.bind_of_eq_ok hp, Parser.bind_of_eq_ok hq]
    exact (hfg _ _ hv _ _ hd (Nat.lt_of_le_of_lt hle hlen)).mono hle
  | error he =>
    rw [Parser.bind_of_eq_error hp, Parser.bind_of_eq_error hq]
    exact .error he

/-- A second part that only gives the result a new form. -/
theorem bind_pure {p : Parser α} {q : Parser β} {f : α → γ} {g : β → δ} (hpq : S.Alike N V p q)
    (hfg : ∀ a b, V a b → W (f a) (g b)) :
    S.Alike N W (p >>= fun a => Pure.pure (f a)) (q >>= fun b => Pure.pure (g b)) :=
  hpq.bind fun a b hab => pure (hfg a b hab)

/-- A token is accepted by both parsers or by none. -/
theorem accept? (tt : TokenType) :
    S.Alike N (Option.Rel S.token) (Parser.accept? tt) (Parser.accept? tt) := by
  intro c c' hc _
  simp only [Parser.accept?, ← hc.type_eq]
  split
  · refine .ok (.some hc.current) hc.advance ?_
    simp only [Cursor.advance, List.length_tail]
    omega
  · refine .ok .none ⟨hc.rest, ?_⟩ (Nat.le_refl _)
    simp only [Cursor.miss, hc.expected]

/-- Behind a token that was looked for, an input is shorter if the token was there. -/
theorem accept?_bind {tt : TokenType} (htt : tt ≠ .symbol .endOfInput)
    {f : Option Token → Parser γ} {g : Option Token → Parser δ}
    (hsome : ∀ k k', S.token k k' → S.Alike N W (f (some k)) (g (some k')))
    (hnone : S.Alike (N + 1) W (f none) (g none)) :
    S.Alike (N + 1) W (Parser.accept? tt >>= f) (Parser.accept? tt >>= g) := by
  intro c c' hc hlen
  by_cases htype : c.current.type = tt
  · have hp : Parser.accept? tt c = .ok (some c.current, c.advance) := if_pos htype
    have hq : Parser.accept? tt c' = .ok (some c'.current, c'.advance) :=
      if_pos (hc.type_eq ▸ htype)
    -- the input is not empty, because its end is not what was looked for
    have hshorter : c.advance.rest.length < c.rest.length := by
      obtain ⟨rest, expected⟩ := c
      cases rest with
      | nil => exact absurd htype.symm htt
      | cons k ks => exact Nat.lt_succ_self _
    rw [Parser.bind_of_eq_ok hp, Parser.bind_of_eq_ok hq]
    exact (hsome _ _ hc.current _ _ hc.advance (by omega)).mono (Nat.le_of_lt hshorter)
  · have hp : Parser.accept? tt c = .ok (none, c.miss tt) := if_neg htype
    have hq : Parser.accept? tt c' = .ok (none, c'.miss tt) := if_neg (hc.type_eq ▸ htype)
    rw [Parser.bind_of_eq_ok hp, Parser.bind_of_eq_ok hq]
    have hmiss : S.Cursors (c.miss tt) (c'.miss tt) :=
      ⟨hc.rest, congrArg (TokenSet.insert · tt) hc.expected⟩
    exact hnone _ _ hmiss hlen

/-- Parsers that stop at once are alike. -/
theorem unexpected : S.Alike N V Parser.unexpected Parser.unexpected :=
  fun _ _ hc _ => .error ⟨hc.current, hc.expected, .nil⟩

/-- What comes behind a parser that stops does not matter. -/
theorem unexpected_bind {f : α → Parser γ} {g : β → Parser δ} :
    S.Alike N W (Parser.unexpected >>= f) (Parser.unexpected >>= g) :=
  unexpected

/-- A required token is there for both parsers or for none. -/
theorem require (tt : TokenType) :
    S.Alike N S.token (Parser.require tt) (Parser.require tt) := by
  refine (accept? tt).bind fun o o' ho => ?_
  cases ho with
  | none => exact unexpected
  | some hk => exact pure hk

/-- Behind a token that is required, an input is shorter. -/
theorem require_bind {tt : TokenType} (htt : tt ≠ .symbol .endOfInput)
    {f : Token → Parser γ} {g : Token → Parser δ}
    (h : ∀ k k', S.token k k' → S.Alike N W (f k) (g k')) :
    S.Alike (N + 1) W (Parser.require tt >>= f) (Parser.require tt >>= g) := by
  simp only [Parser.require, bind_assoc]
  exact accept?_bind htt (fun k k' hk => (pure hk).bind h) unexpected_bind

/-- A look at the next token has the same result. -/
theorem startsWith (set : TokenSet) :
    S.Alike N Eq (Parser.startsWith set) (Parser.startsWith set) := by
  intro c c' hc _
  simp only [Parser.startsWith, ← hc.type_eq]
  split
  · exact .ok rfl hc (Nat.le_refl _)
  · refine .ok rfl ⟨hc.rest, ?_⟩ (Nat.le_refl _)
    simp only [hc.expected]

/-- The same operator is found. -/
theorem oneOf? (table : List (Symbol × α)) :
    S.Alike N Eq (Parser.oneOf? table) (Parser.oneOf? table) := by
  induction table with
  | nil => exact pure rfl
  | cons entry more ih =>
    refine (accept? _).bind fun o o' ho => ?_
    cases ho with
    | none => exact ih
    | some _ => exact pure rfl

/-- Related trees can be kept. -/
theorem keeping {parts parts' : List (Tree Label)} (hparts : List.Forall₂ S.tree parts parts')
    {p : Parser α} {q : Parser β} (h : S.Alike N V p q) :
    S.Alike N V (Parser.keeping parts p) (Parser.keeping parts' q) := by
  intro c c' hc hlen
  have h := h c c' hc hlen
  simp only [Parser.keeping]
  generalize p c = r at h
  generalize q c' = r' at h
  cases h with
  | ok hv hd hle => exact .ok hv hd hle
  | error he => exact .error ⟨he.actual, he.expected, List.rel_append hparts he.pending⟩

/-- Related trees can be kept in front. -/
theorem keepingFrom {first first' : Tree Label} {behind behind' : List (Tree Label)}
    (hfirst : S.tree first first') (hbehind : List.Forall₂ S.tree behind behind') {p : Parser α}
    {q : Parser β} (h : S.Alike N V p q) :
    S.Alike N V (Parser.keepingFrom first behind p) (Parser.keepingFrom first' behind' q) :=
  h.keeping (.cons hfirst (List.rel_reverse hbehind))

/-- Loops with as many rounds at most are alike if their rounds are. -/
theorem iterateAlong {step : α → Parser (Option α)} {step' : β → Parser (Option β)}
    (h : ∀ a b, V a b → S.Alike N (Option.Rel V) (step a) (step' b)) {bound bound' : List Token}
    (hbound : bound.length = bound'.length) {a : α} {b : β} (hab : V a b) :
    S.Alike N V (Parser.iterateAlong step bound a) (Parser.iterateAlong step' bound' b) := by
  induction bound generalizing bound' a b with
  | nil =>
    obtain rfl := List.length_eq_zero_iff.1 hbound.symm
    exact pure hab
  | cons _ bound ih =>
    obtain ⟨k', bound', rfl⟩ := List.exists_cons_of_length_eq_add_one hbound.symm
    refine (h a b hab).bind fun o o' ho => ?_
    cases ho with
    | none => exact pure hab
    | some hab => exact ih (by simpa using hbound) hab

/-- Loops are alike if their rounds are. -/
theorem iterate {step : α → Parser (Option α)} {step' : β → Parser (Option β)}
    (h : ∀ a b, V a b → S.Alike N (Option.Rel V) (step a) (step' b)) {a : α} {b : β} (hab : V a b) :
    S.Alike N V (Parser.iterate step a) (Parser.iterate step' b) :=
  fun c c' hc hlen =>
    -- the bound is the length of the input, of which only the length counts
    have hbound : (c.current :: c.rest).length = (c'.current :: c'.rest).length :=
      congrArg Nat.succ hc.rest.length_eq
    iterateAlong h hbound hab c c' hc hlen

/-- The items behind the first, the last of them first, as a loop collects them. -/
theorem collect {step step' : List (Tree Label) → Parser (Option (List (Tree Label)))}
    (h : ∀ ts ts', List.Forall₂ S.tree ts ts' →
      S.Alike N (Option.Rel (List.Forall₂ S.tree)) (step ts) (step' ts')) :
    S.Alike N (List.Forall₂ S.tree) (Parser.iterate step [] >>= fun ts => Pure.pure ts.reverse)
      (Parser.iterate step' [] >>= fun ts => Pure.pure ts.reverse) :=
  (iterate h .nil).bind_pure fun _ _ h => List.rel_reverse h

/-- Items with separators between them are parsed alike. -/
theorem separated (separator : Symbol) {item item' : Parser (Tree Label)}
    (h : S.Alike N S.tree item item') {first first' : Tree Label} (hfirst : S.tree first first') :
    S.Alike N (List.Forall₂ S.tree) (Parser.separated separator item first)
      (Parser.separated separator item' first') := by
  refine collect fun behind behind' hbehind => (accept? _).bind fun o o' ho => ?_
  cases ho with
  | none => exact pure .none
  | some _ =>
    exact (h.keepingFrom hfirst hbehind).bind_pure fun t t' ht => .some (.cons ht hbehind)

/-- Items that follow each other are parsed alike. -/
theorem many (start : TokenSet) {item item' : Parser (Tree Label)}
    (h : S.Alike N S.tree item item') {first first' : Tree Label} (hfirst : S.tree first first') :
    S.Alike N (List.Forall₂ S.tree) (Parser.many start item first)
      (Parser.many start item' first') := by
  refine collect fun behind behind' hbehind => (startsWith start).bind fun found found' hfound => ?_
  subst hfound
  cases found with
  | false => exact pure .none
  | true =>
    exact (h.keepingFrom hfirst hbehind).bind_pure fun t t' ht => .some (.cons ht hbehind)

/-- Chains that group from the left are parsed alike. -/
theorem leftNested (operators : List (Symbol × Kind)) {operand operand' : Parser (Tree Label)}
    (h : S.Alike N S.tree operand operand') {left left' : Tree Label} (hleft : S.tree left left') :
    S.Alike N S.tree (Parser.leftNested operators operand left)
      (Parser.leftNested operators operand' left') := by
  refine iterate (fun left left' hleft => (oneOf? operators).bind fun o o' ho => ?_) hleft
  subst ho
  cases o with
  | none => exact pure .none
  | some kind =>
    have hkept := h.keeping (.cons hleft .nil)
    exact hkept.bind_pure fun t t' ht => .some (S.branch (.cons hleft (.cons ht .nil)) kind)

end Alike

/-- Related trees are grouped from the right to related trees. -/
theorem rightNested (kind : Kind) {first first' : Tree Label} {ts ts' : List (Tree Label)}
    (hfirst : S.tree first first') (hts : List.Forall₂ S.tree ts ts') :
    S.tree (Parser.rightNested kind first ts) (Parser.rightNested kind first' ts') := by
  induction hts generalizing first first' with
  | nil => exact hfirst
  | cons ht _ ih => exact S.branch (.cons hfirst (.cons (ih ht) .nil)) kind

/-- Related trees are gathered to related trees. -/
theorem gathered (kind : Kind) {first first' : Tree Label} {ts ts' : List (Tree Label)}
    (hfirst : S.tree first first') (hts : List.Forall₂ S.tree ts ts') :
    S.tree (Parser.gathered kind first ts) (Parser.gathered kind first' ts') := by
  cases hts with
  | nil => exact hfirst
  | cons ht hts => exact S.branch (.cons hfirst (.cons ht hts)) kind

/-! ### Names and parameters -/

/-- Related tokens have related leaves. -/
theorem nameLeaf {k k' : Token} (h : S.token k k') :
    S.tree (Parser.nameLeaf k) (Parser.nameLeaf k') := by
  unfold Parser.nameLeaf
  rw [S.lexeme_eq h]
  exact S.leaf h .identifier _

/-- Names are parsed alike. -/
theorem alike_name : S.Alike N S.tree Parser.name Parser.name :=
  (Alike.require _).bind_pure fun _ _ => nameLeaf

/-- Names behind a first one are parsed alike. -/
theorem alike_nameList {first first' : Tree Label} (hfirst : S.tree first first') :
    S.Alike N S.tree (Parser.nameList first) (Parser.nameList first') :=
  (alike_name.separated .comma hfirst).bind_pure fun _ _ => gathered .names hfirst

/-- Parameters are parsed alike. -/
theorem alike_parameter : S.Alike N S.tree Parser.parameter Parser.parameter := by
  refine (Alike.accept? _).bind fun o o' ho => ?_
  cases ho with
  | some hk => exact .pure (nameLeaf hk)
  | none =>
    refine (Alike.require _).bind fun paren paren' hparen => ?_
    refine (Alike.accept? _).bind fun o o' ho => ?_
    cases ho with
    | some _ => exact .pure (S.leaf hparen .unit none)
    | none =>
      refine alike_name.bind fun first first' hfirst => ?_
      refine (alike_nameList hfirst).bind fun names names' hnames => ?_
      exact ((Alike.require _).keeping (.cons hnames .nil)).bind_pure fun _ _ _ => hnames

/-! ### Productions -/

section

variable {self self' : Goal → Parser (Tree Label)}
  (hself : ∀ g, S.Alike N S.tree (self g) (self' g))
include hself

/-- What is in parentheses is parsed alike, behind a token that is taken. -/
theorem alike_parenthesized :
    S.Alike (N + 1) S.tree (Parser.parenthesized self) (Parser.parenthesized self') := by
  refine .accept?_bind (by decide) (fun _ _ _ => ?_) ?_
  · refine (hself .expression).bind fun t t' ht => ?_
    exact ((Alike.require _).keeping (.cons ht .nil)).bind_pure fun _ _ _ => ht
  · exact (Alike.startsWith _).bind fun _ _ _ => .unexpected

/-- Operands are parsed alike. -/
theorem alike_operand :
    S.Alike (N + 1) S.tree (Parser.operand self) (Parser.operand self') := by
  intro c c' hc hlen
  have hlexeme := S.lexeme_eq hc.current
  cases hleaf : Parser.leaf? c.current.lexeme with
  | none =>
    rw [Parser.operand_of_none self hleaf, Parser.operand_of_none self' (hlexeme ▸ hleaf)]
    exact alike_parenthesized hself c c' hc hlen
  | some kind =>
    rw [Parser.operand_of_leaf self hleaf, Parser.operand_of_leaf self' (hlexeme ▸ hleaf)]
    refine .ok (S.leaf hc.current _ _) hc.advance ?_
    simp only [Cursor.advance, List.length_tail]
    omega

/-- Applications are parsed alike. -/
theorem alike_application :
    S.Alike (N + 1) S.tree (Parser.application self) (Parser.application self') := by
  refine (alike_operand hself).bind fun f f' hf => .iterate (fun f f' hf => ?_) hf
  refine (Alike.startsWith _).bind fun found found' hfound => ?_
  subst hfound
  cases found with
  | false => exact .pure .none
  | true =>
    have hkept := (alike_operand hself).keeping (.cons hf .nil)
    exact hkept.bind_pure fun t t' ht => .some (S.branch (.cons hf (.cons ht .nil)) _)

/-- Applications by name are parsed alike. -/
theorem alike_applicationByName :
    S.Alike (N + 1) S.tree (Parser.applicationByName self) (Parser.applicationByName self') := by
  refine (alike_application hself).bind fun left left' hleft =>
    .iterate (fun left left' hleft => ?_) hleft
  refine (Alike.accept? _).bind fun o o' ho => ?_
  cases ho with
  | none => exact .pure .none
  | some _ =>
    refine (alike_name.keeping (.cons hleft .nil)).bind fun f f' hf => ?_
    have hkept := (alike_application hself).keeping (.cons hleft (.cons hf .nil))
    exact hkept.bind_pure fun t t' ht =>
      .some (S.branch (.cons hleft (.cons hf (.cons ht .nil))) _)

/-- Powers are parsed alike. -/
theorem alike_power : S.Alike (N + 1) S.tree (Parser.power self) (Parser.power self') := by
  have hbase := alike_applicationByName hself
  exact hbase.bind fun base base' h => (hbase.separated _ h).bind_pure fun _ _ => rightNested _ h

/-- Products are parsed alike. -/
theorem alike_product : S.Alike (N + 1) S.tree (Parser.product self) (Parser.product self') := by
  have hpower := alike_power hself
  exact hpower.bind fun left left' hleft => hpower.leftNested _ hleft

/-- Sums that start with a sign are parsed alike. -/
theorem alike_signedProduct :
    S.Alike (N + 1) S.tree (Parser.signedProduct self) (Parser.signedProduct self') := by
  have hproduct := alike_product hself
  refine (Alike.accept? _).bind fun o o' ho => ?_
  cases ho with
  | some _ => exact hproduct
  | none =>
    refine (Alike.accept? _).bind fun o o' ho => ?_
    cases ho with
    | some _ => exact hproduct.bind_pure fun t t' ht => S.branch (.cons ht .nil) _
    | none => exact hproduct

/-- Sums are parsed alike. -/
theorem alike_sum : S.Alike (N + 1) S.tree (Parser.sum self) (Parser.sum self') :=
  (alike_signedProduct hself).bind fun _ _ hleft => (alike_product hself).leftNested _ hleft

/-- Comparisons are parsed alike. -/
theorem alike_comparison :
    S.Alike (N + 1) S.tree (Parser.comparison self) (Parser.comparison self') := by
  refine (alike_sum hself).bind fun left left' hleft => ?_
  refine (Alike.oneOf? _).bind fun o o' ho => ?_
  subst ho
  cases o with
  | none => exact .pure hleft
  | some kind =>
    have hkept := (alike_sum hself).keeping (.cons hleft .nil)
    exact hkept.bind_pure fun t t' ht => S.branch (.cons hleft (.cons ht .nil)) kind

/-- Negations are parsed alike. -/
theorem alike_negation :
    S.Alike (N + 1) S.tree (Parser.negation self) (Parser.negation self') := by
  refine (Alike.accept? _).bind fun o o' ho => ?_
  cases ho with
  | some _ => exact (alike_comparison hself).bind_pure fun t t' ht => S.branch (.cons ht .nil) _
  | none => exact alike_comparison hself

/-- Conjunctions are parsed alike. -/
theorem alike_conjunction :
    S.Alike (N + 1) S.tree (Parser.conjunction self) (Parser.conjunction self') :=
  (alike_negation hself).bind fun _ _ hleft => (alike_negation hself).leftNested _ hleft

/-- Disjunctions are parsed alike. -/
theorem alike_disjunction :
    S.Alike (N + 1) S.tree (Parser.disjunction self) (Parser.disjunction self') :=
  (alike_conjunction hself).bind fun _ _ hleft => (alike_conjunction hself).leftNested _ hleft

/-- Conditionals are parsed alike. -/
theorem alike_conditional :
    S.Alike (N + 1) S.tree (Parser.conditional self) (Parser.conditional self') := by
  refine (alike_disjunction hself).bind fun p p' hp => .accept?_bind (by decide) (fun _ _ _ => ?_) ?_
  -- the branches come behind the arrow, so that `self` is used on a shorter input
  · refine ((hself .branch).keeping (.cons hp .nil)).bind fun t t' ht => ?_
    have hparts : List.Forall₂ S.tree [p, t] [p', t'] := .cons hp (.cons ht .nil)
    refine ((Alike.require _).keeping hparts).bind fun _ _ _ => ?_
    exact ((hself .branch).keeping hparts).bind_pure fun e e' he =>
      S.branch (.cons hp (.cons ht (.cons he .nil))) _
  · exact .pure hp

/-- Augmentations are parsed alike. -/
theorem alike_augmentation :
    S.Alike (N + 1) S.tree (Parser.augmentation self) (Parser.augmentation self') :=
  (alike_conditional hself).bind fun _ _ hleft => (alike_conditional hself).leftNested _ hleft

/-- Tuples are parsed alike. -/
theorem alike_tuple : S.Alike (N + 1) S.tree (Parser.tuple self) (Parser.tuple self') := by
  have haug := alike_augmentation hself
  exact haug.bind fun first first' h => (haug.separated _ h).bind_pure fun _ _ => gathered _ h

/-- Basic definitions are parsed alike. -/
theorem alike_basicDefinition :
    S.Alike (N + 1) S.tree (Parser.basicDefinition self) (Parser.basicDefinition self') := by
  refine .accept?_bind (by decide) (fun _ _ _ => ?_) ?_
  · refine (hself .definition).bind fun t t' ht => ?_
    exact ((Alike.require _).keeping (.cons ht .nil)).bind_pure fun _ _ _ => ht
  · simp only [Parser.name, bind_assoc]
    refine .require_bind (by decide) fun k k' hk => (Alike.pure (nameLeaf hk)).bind fun x x' hx => ?_
    refine (alike_parameter.many _ hx).bind fun vs vs' hvs => ?_
    -- a name without parameters begins a list of names, with parameters it is that of a function
    cases hvs with
    | nil =>
      refine (alike_nameList hx).bind fun names names' hnames => ?_
      refine ((Alike.require _).keeping (.cons hnames .nil)).bind fun _ _ _ => ?_
      exact ((hself .expression).keeping (.cons hnames .nil)).bind_pure fun e e' he =>
        S.branch (.cons hnames (.cons he .nil)) _
    | cons hv hvs =>
      have hparts := List.Forall₂.cons hx (.cons hv hvs)
      refine ((Alike.require _).keeping hparts).bind fun _ _ _ => ?_
      exact ((hself .expression).keeping hparts).bind_pure fun e e' he =>
        S.branch (List.rel_append hparts (.cons he .nil)) _

/-- Recursive definitions are parsed alike. -/
theorem alike_recursiveDefinition :
    S.Alike (N + 1) S.tree (Parser.recursiveDefinition self)
      (Parser.recursiveDefinition self') := by
  refine (Alike.accept? _).bind fun o o' ho => ?_
  cases ho with
  | some _ =>
    exact (alike_basicDefinition hself).bind_pure fun t t' ht => S.branch (.cons ht .nil) _
  | none => exact alike_basicDefinition hself

/-- Simultaneous definitions are parsed alike. -/
theorem alike_simultaneousDefinition :
    S.Alike (N + 1) S.tree (Parser.simultaneousDefinition self)
      (Parser.simultaneousDefinition self') := by
  have hrec := alike_recursiveDefinition hself
  exact hrec.bind fun first first' h => (hrec.separated _ h).bind_pure fun _ _ => gathered _ h

/-- Definitions are parsed alike. -/
theorem alike_definition :
    S.Alike (N + 1) S.tree (Parser.definition self) (Parser.definition self') := by
  have hand := alike_simultaneousDefinition hself
  exact hand.bind fun first first' h => (hand.separated _ h).bind_pure fun _ _ => rightNested _ h

/-- `where` clauses are parsed alike. -/
theorem alike_whereClause :
    S.Alike (N + 1) S.tree (Parser.whereClause self) (Parser.whereClause self') := by
  refine (alike_tuple hself).bind fun body body' hbody => ?_
  refine (Alike.accept? _).bind fun o o' ho => ?_
  cases ho with
  | none => exact .pure hbody
  | some _ =>
    have hkept := (alike_recursiveDefinition hself).keeping (.cons hbody .nil)
    exact hkept.bind_pure fun t t' ht => S.branch (.cons hbody (.cons ht .nil)) _

/-- Expressions are parsed alike. -/
theorem alike_expression :
    S.Alike (N + 1) S.tree (Parser.expression self) (Parser.expression self') := by
  refine .accept?_bind (by decide) (fun _ _ _ => ?_)
    (.accept?_bind (by decide) (fun _ _ _ => ?_) ?_)
  · refine (hself .definition).bind fun d d' hd => ?_
    refine ((Alike.require _).keeping (.cons hd .nil)).bind fun _ _ _ => ?_
    exact ((hself .expression).keeping (.cons hd .nil)).bind_pure fun e e' he =>
      S.branch (.cons hd (.cons he .nil)) _
  · refine alike_parameter.bind fun v v' hv => ?_
    refine (alike_parameter.many _ hv).bind fun vs vs' hvs => ?_
    refine ((Alike.require _).keeping (.cons hv hvs)).bind fun _ _ _ => ?_
    exact ((hself .expression).keeping (.cons hv hvs)).bind_pure fun e e' he =>
      S.branch (List.rel_append (.cons hv hvs) (.cons he .nil)) _
  · exact alike_whereClause hself

/-- Goals that are alike give productions that are alike on inputs that are longer by one token. -/
theorem alike_goal : ∀ g, S.Alike (N + 1) S.tree (Parser.goal self g) (Parser.goal self' g)
  | .expression => alike_expression hself
  | .branch => alike_conditional hself
  | .definition => alike_definition hself

end

/-! ### Programs -/

/-- Depths of at least `N` are alike on inputs of less than `N` tokens. -/
theorem alike_nested {depth depth' : Nat} (hd : N ≤ depth) (hd' : N ≤ depth') (g : Goal) :
    S.Alike N S.tree (Parser.nested depth g) (Parser.nested depth' g) := by
  induction N generalizing depth depth' g with
  | zero => exact fun c c' _ hc => absurd hc (Nat.not_lt_zero _)
  | succ N ih =>
    obtain ⟨d, rfl⟩ := Nat.exists_eq_add_of_lt hd
    obtain ⟨d', rfl⟩ := Nat.exists_eq_add_of_lt hd'
    -- the goals within the production come behind a token, where depth `N` is enough
    exact alike_goal (fun g => ih (by omega) (by omega) g) g

/-- Programs are parsed alike. -/
theorem alike_program : S.Alike N S.tree Parser.program Parser.program := by
  intro c c' hc _
  -- the depth is the length of the input, which is the same for both
  have hdepth : c.rest.length + 1 ≤ c'.rest.length + 1 := by rw [hc.rest.length_eq]
  have hnested := alike_nested (S := S) (Nat.le_refl _) hdepth .expression
  have hprogram := hnested.bind fun t t' ht =>
    ((Alike.require (.symbol .endOfInput)).keeping (.cons ht .nil)).bind_pure fun _ _ _ => ht
  exact hprogram c c' hc (Nat.lt_succ_self _)

/-- Similar tokens are parsed alike: the trees are similar, or the errors are. -/
theorem ofTokens {tokens tokens' : List Token} (h : List.Forall₂ S.token tokens tokens') :
    (∃ t t', Tree.ofTokens tokens = .ok t ∧ Tree.ofTokens tokens' = .ok t' ∧ S.tree t t') ∨
      ∃ e e', Tree.ofTokens tokens = .error e ∧ Tree.ofTokens tokens' = .error e' ∧
        S.Errors e e' :=
  (alike_program (.ofTokens tokens) (.ofTokens tokens') ⟨h, rfl⟩ (Nat.lt_succ_self _)).map_fst

end Similarity

/-- Any two depths beyond the length of the input give the same result. -/
theorem nested_eq_nested {depth depth' : Nat} (g : Goal) {c : Cursor}
    (hd : c.rest.length < depth) (hd' : c.rest.length < depth') :
    Parser.nested depth g c = Parser.nested depth' g c := by
  have hcursors : Similarity.same.Cursors c c := ⟨List.forall₂_same.2 fun _ _ => rfl, rfl⟩
  exact (Similarity.alike_nested hd hd' g c c hcursors (Nat.lt_succ_self _)).eq

end Rpal.Grammar
