import Rpal.Proofs.Grammar.Acceptance

/-!
# Where a parse stops

A parse that stops says at which token it did, and which token types would have let it go on. Both
are exact: the tokens before are the start of a sentence, with a token of an expected type they
still are, and with any other token they are not.

That the expected types are no more than these follows from the parser's own lookahead. In front of
a token that was not looked for, the parser ends in the same way whatever is behind the token, so it
would not accept the sentence. The sentence can be longer than the depth of the parser; this is why
the place where the parse stops is one that is common to parsers of arbitrary depth.

## Key results

- `exists_stopsAt`: one place where parsers of arbitrary depth stop
- `expected_of_ofTokens`: the place and the expected types are exact
-/

namespace Rpal.Grammar

open Rpal.Parser (headType)

/-- The tokens are the start of an expression with the end of the input behind it. -/
def Viable (ks : List Token) : Prop :=
  ∃ (ts : List Token) (t : Tree Label) (eof : Token), Derives .expression ts t ∧
    eof.type = .symbol .endOfInput ∧ ks <+: ts ++ [eof]

/-- The start of an expression can be the start of a program. -/
theorem viable_of_derives {ks : List Token} (more : List Token) {t : Tree Label}
    (h : Derives .expression (ks ++ more) t) : Viable ks := by
  obtain ⟨eof, heof⟩ := (TokenType.symbol .endOfInput).exists_token
  exact ⟨ks ++ more, t, eof, h, heof, by rw [List.append_assoc]; exact List.prefix_append _ _⟩

/-- The end of the input can come exactly behind an expression. -/
theorem viable_endOfInput_iff {ks : List Token} {eof : Token}
    (heof : eof.type = .symbol .endOfInput) :
    Viable (ks ++ [eof]) ↔ ∃ t, Derives .expression ks t := by
  constructor
  · rintro ⟨ts, t, eof', hts, -, more, hmore⟩
    -- the end of the input is not within the expression
    rcases List.eq_nil_or_concat more with rfl | ⟨more, k, rfl⟩
    · rw [List.append_nil] at hmore
      obtain ⟨rfl, -⟩ := List.append_inj' hmore rfl
      exact ⟨t, hts⟩
    · rw [List.concat_eq_append, ← List.append_assoc] at hmore
      obtain ⟨rfl, -⟩ := List.append_inj' hmore rfl
      exact absurd heof (hts.ne_endOfInput eof (by simp))
  · rintro ⟨t, ht⟩
    exact ⟨ks, t, eof, ht, heof, List.prefix_refl _⟩

/-! ### Parsers of a given depth -/

/-- An expression up to the end of the input, with goals that are nested less than `depth` deep. -/
def programAt (depth : Nat) : Parser (Tree Label) := do
  let t ← Parser.nested depth .expression
  let _ ← Parser.keeping [t] (Parser.require (.symbol .endOfInput))
  return t

/-- Beyond the length of the input, the depth decides nothing. -/
theorem ofTokens_eq_programAt {tokens : List Token} {depth : Nat} (h : tokens.length < depth) :
    Tree.ofTokens tokens = (programAt depth (Cursor.ofTokens tokens)).map (·.1) := by
  have hnested : Parser.nested depth .expression (Cursor.ofTokens tokens) =
      Parser.nested (tokens.length + 1) .expression (Cursor.ofTokens tokens) :=
    nested_eq_nested .expression h (Nat.lt_succ_self _)
  have hprogram : Tree.ofTokens tokens =
      (programAt (tokens.length + 1) (Cursor.ofTokens tokens)).map (·.1) := rfl
  rw [hprogram]
  simp only [programAt, bind, StateT.bind, hnested]

/-- The parser of a given depth stops behind `before` with the error `e`, and so it does in front of
    any token that is not expected. With a token that is expected it could go on. -/
structure StopsAt (depth : Nat) (e : SyntaxError) (before behind : List Token) : Prop where
  actual : e.actual = (Cursor.ofTokens behind).current
  isMissed : e.expected.contains (headType behind) = false
  stops : ∀ rest, e.expected.contains (headType rest) = false →
    programAt depth (Cursor.ofTokens (before ++ rest)) =
      .error { e with actual := (Cursor.ofTokens rest).current }
  viable : Viable before
  offers : ∀ k : Token, e.expected.contains k.type = true → Viable (before ++ [k])

/-- A token that was looked for in vain behind the start of an expression could come there. -/
theorem viable_of_offers {before : List Token} {missed : TokenSet}
    (h : Parser.Offers (Derives .expression) before missed) {k : Token}
    (hk : missed.contains k.type = true) : Viable (before ++ [k]) := by
  obtain ⟨more, t, ht⟩ := h k hk
  exact viable_of_derives more (by simpa using ht)

/-- The parser stops within an expression, or behind one that something else than the end of the
    input follows. -/
theorem exists_stopsAt_of_programAt {depth : Nat} {tokens : List Token} {e : SyntaxError}
    (h : programAt depth (Cursor.ofTokens tokens) = .error e) :
    ∃ before behind, tokens = before ++ behind ∧ StopsAt depth e before behind := by
  obtain ⟨before, behind, missed, r, rfl, hrun⟩ := isSound_nested depth .expression tokens
  refine ⟨before, behind, rfl, ?_⟩
  have hnested : ∀ rest, missed.contains (headType rest) = false →
      Parser.nested depth .expression (Cursor.ofTokens (before ++ rest)) =
        r.outcome ⟨rest, missed⟩ := by
    intro rest hrest
    refine (hrun.ends .empty rest hrest).trans ?_
    cases before <;> simp
  cases r with
  | stopped pending =>
    obtain ⟨more, t, ht⟩ := hrun.fits
    -- the error is that of the expression
    cases h.symm.trans (Parser.bind_of_eq_error (hnested behind hrun.isMissed))
    exact {
      actual := rfl
      isMissed := hrun.isMissed
      stops := fun rest hrest => Parser.bind_of_eq_error (hnested rest hrest)
      viable := viable_of_derives more ht
      offers := fun k hk => viable_of_offers hrun.offers hk }
  | done t =>
    have ht : Derives .expression before t := hrun.fits
    have hstops : ∀ rest, (missed.insert (.symbol .endOfInput)).contains (headType rest) = false →
        programAt depth (Cursor.ofTokens (before ++ rest)) = .error
          ⟨(Cursor.ofTokens rest).current, missed.insert (.symbol .endOfInput), [t]⟩ := by
      intro rest hrest
      obtain ⟨hend, hmissed⟩ : headType rest ≠ .symbol .endOfInput ∧
          missed.contains (headType rest) = false := by simpa using hrest
      refine (Parser.bind_of_eq_ok (hnested rest hmissed)).trans (Parser.bind_of_eq_error ?_)
      simp only [Parser.keeping, Parser.require_of_ne hend]
      rfl
    -- at the end of the input the parser would not have stopped
    have hbehind : (missed.insert (.symbol .endOfInput)).contains (headType behind) = false := by
      by_contra hcontains
      have hend : headType behind = .symbol .endOfInput := by
        simpa [hrun.isMissed] using hcontains
      obtain ⟨r, hr⟩ := require_endOfInput (c := ⟨behind, missed⟩).2 hend
      have hkeeping : Parser.keeping [t] (Parser.require (.symbol .endOfInput)) ⟨behind, missed⟩ =
          .ok r := by simp only [Parser.keeping, hr]
      cases h.symm.trans ((Parser.bind_of_eq_ok (hnested behind hrun.isMissed)).trans
        (Parser.bind_of_eq_ok hkeeping))
    cases h.symm.trans (hstops behind hbehind)
    refine {
      actual := rfl
      isMissed := hbehind
      stops := hstops
      viable := viable_of_derives [] (by simpa using ht)
      offers := fun k hk => ?_ }
    -- the end of the input is expected besides what the expression can go on with
    by_cases hend : k.type = .symbol .endOfInput
    · exact (viable_endOfInput_iff hend).2 ⟨t, ht⟩
    · exact viable_of_offers hrun.offers (by simpa [hend] using hk)

/-! ### Parsers of arbitrary depth -/

/-- The places of a program are finitely many, so the parsers of infinitely many depths stop at the
    same one. -/
theorem exists_stopsAt {tokens : List Token} {e : SyntaxError}
    (h : Tree.ofTokens tokens = .error e) :
    ∃ before behind, tokens = before ++ behind ∧ ∀ bound, ∃ depth, bound < depth ∧
      StopsAt depth e before behind := by
  have hstops : ∀ n, ∃ before behind, tokens = before ++ behind ∧
      StopsAt (tokens.length + 1 + n) e before behind := by
    intro n
    have hmap : (programAt (tokens.length + 1 + n) (Cursor.ofTokens tokens)).map (·.1) = .error e :=
      (ofTokens_eq_programAt (by omega)).symm.trans h
    cases herror : programAt (tokens.length + 1 + n) (Cursor.ofTokens tokens) with
    | ok r =>
      rw [herror] at hmap
      cases hmap
    | error e' =>
      rw [herror] at hmap
      cases hmap
      exact exists_stopsAt_of_programAt herror
  choose before behind hsplit hstops using hstops
  have hlength : ∀ n, (before n).length < tokens.length + 1 := by
    intro n
    have := congrArg List.length (hsplit n)
    rw [List.length_append] at this
    omega
  -- a place is known by how many tokens are before it
  obtain ⟨place, hplace⟩ :=
    Finite.exists_infinite_fiber fun n => (⟨_, hlength n⟩ : Fin (tokens.length + 1))
  have hplace := Set.infinite_coe_iff.1 hplace
  obtain ⟨n₀, hn₀, -⟩ := hplace.exists_gt 0
  refine ⟨before n₀, behind n₀, hsplit n₀, fun bound => ?_⟩
  obtain ⟨n, hn, hbound⟩ := hplace.exists_gt bound
  have hlen : (before n₀).length = (before n).length := congrArg Fin.val (hn₀.trans hn.symm)
  obtain ⟨hbefore, hbehind⟩ := List.append_inj ((hsplit n₀).symm.trans (hsplit n)) hlen
  rw [hbefore, hbehind]
  exact ⟨_, by omega, hstops n⟩

/-- A parse that stops does so behind tokens with which an expression can start, in front of a token
    with which they cannot. The token types that it expects are exactly those with which they can;
    the end of the input is one of them exactly if the tokens are an expression. -/
theorem expected_of_ofTokens {tokens : List Token} {e : SyntaxError}
    (h : Tree.ofTokens tokens = .error e) :
    ∃ before behind, tokens = before ++ behind ∧ e.actual = (Cursor.ofTokens behind).current ∧
      Viable before ∧ (∀ k : Token, k.type = e.actual.type → ¬ Viable (before ++ [k])) ∧
      (∀ k : Token, e.expected.contains k.type = true ↔ Viable (before ++ [k])) ∧
      (e.expected.contains (.symbol .endOfInput) = true ↔ ∃ t, Derives .expression before t) := by
  obtain ⟨before, behind, rfl, hstops⟩ := exists_stopsAt h
  obtain ⟨_, _, hstop⟩ := hstops 0
  have hexact : ∀ k : Token, e.expected.contains k.type = true ↔ Viable (before ++ [k]) := by
    refine fun k => ⟨hstop.offers k, ?_⟩
    rintro ⟨ts, t, eof, hts, heof, more, hmore⟩
    by_contra hk
    -- a parser that is deep enough would stop within the sentence
    obtain ⟨depth, hdepth, hdeep⟩ := hstops (ts ++ [eof]).length
    have hbefore : beforeEnd (ts ++ [eof]) = ts := beforeEnd_append hts.ne_endOfInput heof
    have hok : Tree.ofTokens (ts ++ [eof]) = .ok t := ofTokens_of_derives (hbefore.symm ▸ hts)
    rw [ofTokens_eq_programAt hdepth, ← hmore, List.append_assoc,
      hdeep.stops _ (Bool.not_eq_true _ ▸ hk)] at hok
    cases hok
  refine ⟨before, behind, rfl, hstop.actual, hstop.viable, fun k hk hviable => ?_, hexact, ?_⟩
  · have := (hexact k).2 hviable
    rw [hk, hstop.actual] at this
    exact Bool.false_ne_true (hstop.isMissed.symm.trans this)
  · obtain ⟨eof, heof⟩ := (TokenType.symbol .endOfInput).exists_token
    rw [← viable_endOfInput_iff heof, ← hexact eof, heof]

/-- Behind `fn` a parameter is expected: with a name or a parenthesis an expression can go on, and it
    cannot end. -/
theorem expected_of_ofTokens_fn :
    ∃ fn eof : Token, fn.type = .symbol .fnKw ∧ eof.type = .symbol .endOfInput ∧
      Tree.ofTokens [fn, eof] = .error
        { actual := eof, expected := Parser.parameterStart, pending := [] } ∧
      ∃ before behind, [fn, eof] = before ++ behind ∧ eof = (Cursor.ofTokens behind).current ∧
        Viable before ∧ (∀ k : Token, k.type = eof.type → ¬ Viable (before ++ [k])) ∧
        (∀ k : Token, Parser.parameterStart.contains k.type = true ↔ Viable (before ++ [k])) ∧
        (Parser.parameterStart.contains (.symbol .endOfInput) = true ↔
          ∃ t, Derives .expression before t) := by
  have hstops : Tree.ofTokens [⟨.symbol .fnKw, ⟨0, 2⟩, 1⟩, ⟨.symbol .endOfInput, ⟨2, 0⟩, 1⟩] = .error
      { actual := ⟨.symbol .endOfInput, ⟨2, 0⟩, 1⟩, expected := Parser.parameterStart,
        pending := [] } := by rfl
  exact ⟨_, _, rfl, rfl, hstops, expected_of_ofTokens hstops⟩

end Rpal.Grammar
