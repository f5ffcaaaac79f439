import Rpal.Proofs.Grammar.Lookahead

/-!
# Exact reading

`Parser.Reads p ts rest a`: in front of `rest`, the parser `p` takes exactly `ts` and returns `a`,
with a lemma for each way to build a parser. It says nothing about the token types that were looked
for in vain.
-/

namespace Rpal.Parser

variable {α β : Type}

/-! ### Parsers that succeed -/

/-- In front of `rest`, the parser `p` takes exactly `ts` and returns `a`. -/
def Reads (p : Parser α) (ts rest : List Token) (a : α) : Prop :=
  ∀ expected, ∃ expected', p ⟨ts ++ rest, expected⟩ = .ok (a, ⟨rest, expected'⟩)

namespace Reads

variable {ts us vs rest : List Token} {a : α} {b : β}

/-- A result takes no tokens. -/
theorem pure (a : α) : Reads (Pure.pure a : Parser α) [] rest a :=
  fun expected => ⟨expected, rfl⟩

/-- A sequence reads what its parts read, one behind the other. -/
theorem bind {p : Parser α} {f : α → Parser β} (hp : Reads p us (vs ++ rest) a)
    (hf : Reads (f a) vs rest b) : Reads (p >>= f) (us ++ vs) rest b := by
  intro expected
  obtain ⟨e₁, hp⟩ := hp expected
  obtain ⟨e₂, hf⟩ := hf e₁
  refine ⟨e₂, ?_⟩
  rw [List.append_assoc, bind_of_eq_ok hp, hf]

/-- A first part that takes nothing. -/
theorem bind_nil {p : Parser α} {f : α → Parser β} (hp : Reads p [] (ts ++ rest) a)
    (hf : Reads (f a) ts rest b) : Reads (p >>= f) ts rest b :=
  bind hp hf

/-- A first part that takes one token. -/
theorem bind_cons {p : Parser α} {f : α → Parser β} {k : Token} (hp : Reads p [k] (ts ++ rest) a)
    (hf : Reads (f a) ts rest b) : Reads (p >>= f) (k :: ts) rest b :=
  bind hp hf

/-- A second part that only gives the result a new form. -/
theorem bind_pure {p : Parser α} {f : α → β} (hp : Reads p ts rest a) :
    Reads (p >>= fun a => Pure.pure (f a)) ts rest (f a) := by
  rw [← List.append_nil ts] at hp ⊢
  exact bind (by rwa [List.append_nil] at hp) (pure (f a))

/-- Trees that are kept do not change what is read. -/
theorem keeping {p : Parser α} (parts : List (Tree Label)) (hp : Reads p ts rest a) :
    Reads (keeping parts p) ts rest a := by
  intro expected
  obtain ⟨e, hp⟩ := hp expected
  exact ⟨e, by simp only [Parser.keeping, hp]⟩

/-- Trees that are kept in front do not change what is read. -/
theorem keepingFrom {p : Parser α} (first : Tree Label) (behind : List (Tree Label))
    (hp : Reads p ts rest a) : Reads (keepingFrom first behind p) ts rest a :=
  keepingFrom_eq first behind p ▸ hp.keeping _

/-- A token of the type is read. -/
theorem accept? {tt : TokenType} {k : Token} (h : k.type = tt) :
    Reads (accept? tt) [k] rest (some k) :=
  fun _ => ⟨.empty, if_pos h⟩

/-- In front of a token of another type, none is read. -/
theorem accept?_none {tt : TokenType} (h : headType rest ≠ tt) :
    Reads (Parser.accept? tt) [] rest none :=
  fun expected => ⟨expected.insert tt, if_neg h⟩

/-- A required token is read. -/
theorem require {tt : TokenType} {k : Token} (h : k.type = tt) :
    Reads (require tt) [k] rest k :=
  bind_cons (accept? h) (pure k)

/-- A look at the next token reads nothing. -/
theorem startsWith (set : TokenSet) :
    Reads (startsWith set) [] rest (set.contains (headType rest)) := by
  intro expected
  cases h : set.contains (headType rest) with
  | true => exact ⟨expected, if_pos h⟩
  | false => exact ⟨expected.union set, if_neg (by rw [List.nil_append, current_type, h]; nofun)⟩

/-- No operator is read in front of a token that is none of the table. -/
theorem oneOf?_none {table : List (Symbol × α)}
    (h : ∀ i ∈ table, headType rest ≠ .symbol i.1) : Reads (oneOf? table) [] rest none := by
  induction table with
  | nil => exact pure none
  | cons i table ih =>
    obtain ⟨hi, h⟩ := List.forall_mem_cons.1 h
    exact bind_nil (accept?_none hi) (ih h)

/-- An operator that is only once in the table is found there. -/
theorem oneOf? {table : List (Symbol × α)} (htable : (table.map Prod.fst).Nodup) {op : Symbol}
    {k : Token} (hmem : (op, a) ∈ table) (hk : k.type = .symbol op) :
    Reads (oneOf? table) [k] rest (some a) := by
  induction table with
  | nil => exact nomatch hmem
  | cons i table ih =>
    obtain ⟨op', a'⟩ := i
    obtain ⟨hfresh, hnodup⟩ := List.nodup_cons.1 htable
    rcases List.mem_cons.1 hmem with heq | htail
    · cases heq
      exact bind_cons (accept? hk) (pure (some a))
    · -- the operator is not the first one, which is not in the rest of the table
      have hne : op ≠ op' := by
        rintro rfl
        exact hfresh (List.mem_map.2 ⟨(op, a), htail, rfl⟩)
      refine bind_nil (accept?_none ?_) (ih hnodup htail)
      simpa [hk] using hne

end Reads

/-! ### Loops -/

/-- In front of `rest`, the loop over `step` takes `ts` on its way from one result to another. -/
inductive Steps (step : α → Parser (Option α)) (rest : List Token) :
    List Token → α → α → Prop where
  | done {a} : (step a).Reads [] rest none → Steps step rest [] a a
  | next {us vs a b c} : us ≠ [] → (step a).Reads us (vs ++ rest) (some b) →
      Steps step rest vs b c → Steps step rest (us ++ vs) a c

/-- A loop whose rounds are known reads all of them, if it may go on for longer. -/
theorem Steps.iterateAlong {step : α → Parser (Option α)} {rest ts : List Token} {a b : α}
    (h : Steps step rest ts a b) {bound : List Token} (hbound : ts.length < bound.length) :
    (iterateAlong step bound a).Reads ts rest b := by
  induction h generalizing bound with
  | done hstep =>
    cases bound with
    | nil => exact absurd hbound (Nat.not_lt_zero _)
    | cons => exact .bind_nil hstep (.pure _)
  | next hne hstep _ ih =>
    cases bound with
    | nil => exact absurd hbound (Nat.not_lt_zero _)
    | cons =>
      -- every round takes a token, so that the bound is not reached before the input ends
      have hpos := List.length_pos_iff.2 hne
      simp only [List.length_append, List.length_cons] at hbound
      exact .bind hstep (ih (by omega))

/-- The input bounds a loop that takes a token each time. -/
theorem Steps.iterate {step : α → Parser (Option α)} {rest ts : List Token} {a b : α}
    (h : Steps step rest ts a b) : (iterate step a).Reads ts rest b := by
  intro expected
  refine h.iterateAlong ?_ expected
  rw [List.length_cons, List.length_append]
  omega

/-- One round of the loop behind a list of items: a separator and the item behind it. -/
def separatedStep (separator : Symbol) (item : Parser (Tree Label)) (first : Tree Label)
    (behind : List (Tree Label)) : Parser (Option (List (Tree Label))) := do
  match ← accept? (.symbol separator) with
  | none => return none
  | some _ => return some ((← keepingFrom first behind item) :: behind)

/-- Items with separators are read by a loop that collects them backwards. -/
theorem separated_eq (separator : Symbol) (item : Parser (Tree Label)) (first : Tree Label) :
    separated separator item first =
      (iterate (separatedStep separator item first) [] >>= fun behind =>
        Pure.pure behind.reverse) :=
  rfl

/-! ### Operands -/

/-- A lexeme is an operand by itself exactly if its type is that of one. -/
theorem leaf?_eq_some {l : Lexeme} {kind : Kind} {text : Option String} :
    leaf? l = some (kind, text) ↔ (l.type, kind) ∈ Grammar.leafTokens ∧ text = l.text? := by
  cases l with
  | symbol s =>
    cases s <;> simp [leaf?, Lexeme.type, Lexeme.text?, Grammar.leafTokens, eq_comm]
  | _ => simp [leaf?, Lexeme.type, Lexeme.text?, Grammar.leafTokens, eq_comm]

variable (self : Goal → Parser (Tree Label))

/-- A token that is a leaf is read as an operand. -/
theorem operand_of_leaf {c : Cursor} {kind : Kind} {text : Option String}
    (h : leaf? c.current.lexeme = some (kind, text)) :
    operand self c = .ok (.leaf { kind, text, line := c.current.line }, c.advance) := by
  rw [operand, bind_of_eq_ok (show (get : Parser Cursor) c = .ok (c, c) from rfl)]
  simp only [h]
  rfl

/-- An operand that is no leaf stands in parentheses. -/
theorem operand_of_none {c : Cursor} (h : leaf? c.current.lexeme = none) :
    operand self c = parenthesized self c := by
  rw [operand, bind_of_eq_ok (show (get : Parser Cursor) c = .ok (c, c) from rfl)]
  simp only [h]

end Rpal.Parser
