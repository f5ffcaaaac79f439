import Rpal.Proofs.Machine.Constant
import Rpal.Proofs.Value.Writable

/-!
# Shown values read back

What a program shows of a value that can be written down is itself a program, which has this value.
The text is read as the lexemes of the value, these derive a constant expression, and the machine
computes it. A negative integer is a negated number, and a tuple stands between parentheses, so that
both can be elements of a tuple, at its head or behind a comma.

## Key results

- `Value.exists_derives_of_lexemes`: the lexemes of a value are those of a constant expression
- `Value.render_reads_back`: what is shown of a value is a program that has this value
-/

namespace Rpal

open Rpal.Grammar Rpal.Tree
open ValueOf (render)

namespace Grammar

variable {n : Nonterminal} {tokens : List Token} {t : Tree Label}

/-- An operand is an operand of a sum by itself. -/
theorem Derives.product_of_operand (h : Derives .operand tokens t) : Derives .product tokens t :=
  .only rfl (.only rfl (.only rfl (.only rfl h)))

/-- A sum is an element of a tuple. -/
theorem Derives.augmentation_of_sum (h : Derives .sum tokens t) : Derives .augmentation tokens t :=
  .only rfl (.only rfl (.only rfl (.only rfl (.only rfl (.only rfl h)))))

end Grammar

namespace Value

/-- The lexeme of a single token. -/
theorem eq_of_map_lexeme_eq_singleton {tokens : List Token} {l : Lexeme}
    (h : tokens.map Token.lexeme = [l]) : ∃ k : Token, tokens = [k] ∧ k.lexeme = l := by
  obtain ⟨k, ks, rfl, hk, hks⟩ := List.map_eq_cons_iff.1 h
  exact ⟨k, by rw [List.map_eq_nil_iff.1 hks], hk⟩

/-- A token that is an operand by itself is a constant expression, if it has a value. -/
theorem exists_derives_of_leaf {k : Token} (kind : Kind) {v : Value}
    (hkind : (k.type, kind) ∈ leafTokens)
    (hv : ∀ env : Env, Label.operate { kind, text := k.lexeme.text?, line := k.line } env [] = .ok v) :
    ∃ t, Derives .operand [k] t ∧ IsConstant t v :=
  ⟨_, .leaf hkind, isConstant_leaf (takes_of_leafTokens _ hkind) hv⟩

/-- A reserved word that is an operand by itself. -/
theorem exists_derives_keyword {s : Symbol} (kind : Kind) {v : Value} {tokens : List Token}
    (hkind : (TokenType.symbol s, kind) ∈ leafTokens)
    (hv : ∀ (text : Option String) (line : Nat) (env : Env),
      Label.operate { kind, text, line } env [] = .ok v)
    (h : tokens.map Token.lexeme = [.symbol s]) : ∃ t, Derives .sum tokens t ∧ IsConstant t v := by
  obtain ⟨k, rfl, hk⟩ := eq_of_map_lexeme_eq_singleton h
  have htype : k.type = .symbol s := by rw [Token.type, hk]; rfl
  obtain ⟨t, ht, hconstant⟩ := exists_derives_of_leaf kind (htype ▸ hkind) fun env => hv _ _ env
  exact ⟨t, .only rfl ht.product_of_operand, hconstant⟩

/-- The digits of a number that fits. -/
theorem exists_derives_digits {w : Int64} {n : Nat} (hw : w.toInt = n) {k : Token}
    (hk : k.lexeme = .integer (toString n)) :
    ∃ t, Derives .operand [k] t ∧ IsConstant t (.integer w) := by
  have htype : k.type = .integer := by rw [Token.type, hk]; rfl
  refine exists_derives_of_leaf .integer (by rw [htype]; decide) fun env => ?_
  have hread : Integer.ofText? (toString n) = some w := by
    rw [Integer.ofText?_toString, Integer.checked_eq_some_iff, hw]
  simp only [Label.operate, Label.content, hk, Lexeme.text?, Option.getD_some, hread,
    FaultOf.orOverflow]

/-- The magnitude of an integer fits, unless it is that of the smallest. -/
theorem exists_toInt_eq_natAbs {n : Int64} (hn : n ≠ Int64.minValue) :
    ∃ w : Int64, w.toInt = n.toInt.natAbs := by
  have hmin : n.toInt ≠ -2 ^ 63 := fun h => hn (Int64.toInt_inj.1 (h.trans Int64.toInt_minValue.symm))
  have hle := n.le_toInt
  have hlt := n.toInt_lt
  exact ⟨Int64.ofInt n.toInt.natAbs, Int64.toInt_ofInt_of_le (by omega) (by omega)⟩

/-- A number, or a negated number. -/
theorem exists_derives_integer {n : Int64} (hn : n ≠ Int64.minValue) {tokens : List Token}
    (h : tokens.map Token.lexeme = lexemes (.integer n)) :
    ∃ t, Derives .sum tokens t ∧ IsConstant t (.integer n) := by
  obtain ⟨w, hw⟩ := exists_toInt_eq_natAbs hn
  rw [lexemes] at h
  split at h
  · next hneg =>
    obtain ⟨k₁, ks, rfl, hk₁, h⟩ := List.map_eq_cons_iff.1 h
    obtain ⟨k₂, rfl, hk₂⟩ := eq_of_map_lexeme_eq_singleton h
    obtain ⟨t, ht, hconstant⟩ := exists_derives_digits hw hk₂
    have hminus : k₁.type = .symbol .minus := by rw [Token.type, hk₁]; rfl
    refine ⟨_, .minus hminus ht.product_of_operand, ?_⟩
    have hkind : Kind.neg ≠ .conditional ∧ Kind.neg ≠ .gamma := by decide
    refine .node rfl hkind.1 hkind.2 (.cons hconstant .nil) fun env => ?_
    -- the number without its sign can be read and negated, because it is not the smallest
    have hnegated : Integer.checked (-w.toInt) = some n := by
      rw [Integer.checked_eq_some_iff, hw]
      omega
    simp only [Label.operate, ValueOf.negated, hnegated, FaultOf.orOverflow]
  · next hneg =>
    obtain ⟨k, rfl, hk⟩ := eq_of_map_lexeme_eq_singleton h
    have hn : n.toInt = n.toInt.natAbs := by omega
    obtain ⟨t, ht, hconstant⟩ := exists_derives_digits hn hk
    exact ⟨t, .only rfl ht.product_of_operand, hconstant⟩

/-- The elements of a tuple behind the first, if the lexemes of each element are those of a constant
    expression. -/
theorem exists_derives_lexemesMore {vs : List Value}
    (hvs : ∀ v ∈ vs, ∀ {tokens : List Token}, tokens.map Token.lexeme = v.lexemes →
      ∃ t, Derives .sum tokens t ∧ IsConstant t v)
    {tokens : List Token} (h : tokens.map Token.lexeme = lexemesMore vs) :
    ∃ items : List (Token × Phrase), tokens = separated items ∧
      (∀ i ∈ items, i.1.type = .symbol .comma) ∧
      (∀ i ∈ items, Derives .augmentation i.2.tokens i.2.tree) ∧ AreConstant (trees items) vs := by
  induction vs generalizing tokens with
  | nil =>
    rw [lexemesMore, List.map_eq_nil_iff] at h
    exact ⟨[], h, List.forall_mem_nil _, List.forall_mem_nil _, .nil⟩
  | cons v vs ih =>
    obtain ⟨hv, hvs⟩ := List.forall_mem_cons.1 hvs
    rw [lexemesMore] at h
    -- a comma, the lexemes of the next element, and those of the others
    obtain ⟨k, ks, rfl, hk, h⟩ := List.map_eq_cons_iff.1 h
    obtain ⟨first, more, rfl, hfirst, hmore⟩ := List.map_eq_append_iff.1 h
    obtain ⟨t, ht, hconstant⟩ := hv hfirst
    obtain ⟨items, rfl, hcommas, hitems, hconstants⟩ := ih hvs hmore
    have hcomma : k.type = .symbol .comma := by rw [Token.type, hk]; rfl
    exact ⟨(k, ⟨first, t⟩) :: items, rfl, List.forall_mem_cons.2 ⟨hcomma, hcommas⟩,
      List.forall_mem_cons.2 ⟨ht.augmentation_of_sum, hitems⟩, .cons hconstant hconstants⟩

/-- The lexemes that write a value down are those of a constant expression that has this value. It can
    be an operand of a comparison, and so an element of a tuple. -/
theorem exists_derives_of_lexemes {v : Value} (hv : v.IsWritable) {tokens : List Token}
    (h : tokens.map Token.lexeme = v.lexemes) : ∃ t, Derives .sum tokens t ∧ IsConstant t v := by
  induction hv generalizing tokens with
  | integer hn => exact exists_derives_integer hn h
  | truth b =>
    cases b with
    | true => exact exists_derives_keyword (.truth true) (by decide) (fun _ _ _ => rfl) h
    | false => exact exists_derives_keyword (.truth false) (by decide) (fun _ _ _ => rfl) h
  | dummy => exact exists_derives_keyword .dummy (by decide) (fun _ _ _ => rfl) h
  | @tuple vs hlength _ ih =>
    match vs with
    | [] => exact exists_derives_keyword .nil (by decide) (fun _ _ _ => rfl) h
    | [v] => exact absurd rfl hlength
    | v :: w :: vs =>
      obtain ⟨hv, hvs⟩ := List.forall_mem_cons.1 ih
      rw [lexemes] at h
      -- a parenthesis, the first element, the others with their commas, and the closing parenthesis
      obtain ⟨k₁, ks, rfl, hk₁, h⟩ := List.map_eq_cons_iff.1 h
      obtain ⟨inner, last, rfl, h, hlast⟩ := List.map_eq_append_iff.1 h
      obtain ⟨first, more, rfl, hfirst, hmore⟩ := List.map_eq_append_iff.1 h
      obtain ⟨k₂, rfl, hk₂⟩ := eq_of_map_lexeme_eq_singleton hlast
      obtain ⟨t, ht, hconstant⟩ := hv hfirst
      obtain ⟨items, rfl, hcommas, hitems, hconstants⟩ := exists_derives_lexemesMore hvs hmore
      have hopen : k₁.type = .symbol .lparen := by rw [Token.type, hk₁]; rfl
      have hclose : k₂.type = .symbol .rparen := by rw [Token.type, hk₂]; rfl
      have hne : items ≠ [] := by
        rintro rfl
        cases hconstants
      have htuple := Derives.tau ht.augmentation_of_sum hne hcommas hitems
      have hall := AreConstant.cons hconstant hconstants
      have hcount : 2 ≤ (t :: trees items).length := by
        rw [hall.length_eq]
        exact Nat.le_add_left 2 vs.length
      have hkind : Kind.tau ≠ .conditional ∧ Kind.tau ≠ .gamma := by decide
      exact ⟨_, .only rfl (Derives.parenthesized hopen (.only rfl (.only rfl htuple))
        hclose).product_of_operand, .node (decide_eq_true hcount) hkind.1 hkind.2 hall
        fun _ => rfl⟩

/-- If a value can be written down, then a file that contains what is shown of it is a program. The
    machine halts with the same value, and writes nothing. -/
theorem render_reads_back {v : Value} (hv : v.IsWritable) (name : String) (start : Nat) (sink : Sink) :
    ∃ p, Program.ofFile { name, start, content := v.render } = .ok p ∧
      ∃ n m, (Machine.start p sink).runFor n = .halted (.ok (some v)) m ∧ m.sink = sink := by
  have hreads : Reads (v.render.toList ++ []) (v.lexemes ++ []) := reads_render hv (endsRun_nil _) .nil
  rw [List.append_nil, List.append_nil] at hreads
  obtain ⟨tokens, htokens, hlexemes⟩ := SourceFile.exists_tokens_of_reads
    (f := { name, start, content := v.render }) hreads
  -- the last token is the end of the input
  obtain ⟨body, last, rfl, hbody, hlast⟩ := List.map_eq_append_iff.1 hlexemes
  obtain ⟨k, rfl, hk⟩ := eq_of_map_lexeme_eq_singleton hlast
  obtain ⟨t, ht, hconstant⟩ := exists_derives_of_lexemes hv hbody
  have hend : Parser.headType [k] = .symbol .endOfInput := by
    rw [Parser.headType_cons, Token.type, hk]
    rfl
  have hparse : Tree.ofTokens (body ++ [k]) = .ok t := by
    refine ofTokens_of_derives ?_
    rw [beforeEnd_append ht.ne_endOfInput hend]
    exact .only rfl (.only rfl (.only rfl ht.augmentation_of_sum))
  obtain ⟨p, hp, hhalts⟩ := Program.exists_of_isConstant hconstant sink
  refine ⟨p, ?_, hhalts⟩
  rw [Program.ofFile, SourceFile.tree, htokens]
  simp only [Except.mapError, bind, Except.bind, hparse]
  exact hp

/-- A tuple that starts with a negative integer, and holds the empty tuple and another tuple. -/
theorem render_reads_back_nested :
    let v : Value := .tuple [.integer (-5), .tuple [], .tuple [.truth true, .integer 0, .dummy]]
    v.render = "(-5, nil, (true, 0, dummy))" ∧ v.IsWritable ∧
      ∃ p, Program.ofFile { name := "", start := 0, content := v.render } = .ok p ∧
        ∃ n m, (Machine.start p (Sink.withRoom (some 0))).runFor n = .halted (.ok (some v)) m ∧
          m.sink = .withRoom (some 0) := by
  intro v
  have hinner : IsWritable (.tuple [.truth true, .integer 0, .dummy]) := by
    refine .tuple (by decide) ?_
    simp only [List.forall_mem_cons]
    exact ⟨.truth true, .integer (by decide), .dummy, List.forall_mem_nil _⟩
  have hv : v.IsWritable := by
    refine .tuple (by decide) ?_
    simp only [List.forall_mem_cons]
    exact ⟨.integer (by decide), .tuple (by decide) (List.forall_mem_nil _), hinner,
      List.forall_mem_nil _⟩
  exact ⟨by decide +kernel, hv, render_reads_back hv "" 0 _⟩

end Value

end Rpal
