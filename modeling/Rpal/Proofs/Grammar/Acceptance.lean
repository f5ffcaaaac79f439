import Rpal.Proofs.Grammar.Completeness
import Rpal.Proofs.Grammar.Similarity

/-!
# Programs that are accepted

A program is what stands before the first token that marks the end of the input, or all of the input
if no token does. The parser accepts it exactly if it is an expression of the grammar, and returns
the expression's tree.

## Key results

- `derives_of_ofTokens`, `ofTokens_of_derives`: the parser accepts the expressions of the grammar
- `Derives.unique`: the grammar gives an expression one tree
- `ofTokens_iff_derives`: all of it, and that the bound on the parser's depth decides nothing
-/

namespace Rpal.Grammar

open Rpal.Parser (Consumes Goal headType)

/-- The tokens before the first that marks the end of the input. -/
def beforeEnd (tokens : List Token) : List Token :=
  tokens.takeWhile fun k => k.type ≠ .symbol .endOfInput

/-- The head of what is behind is the end of the input, be it marked or not. -/
theorem exists_eq_beforeEnd_append (tokens : List Token) :
    ∃ rest, tokens = beforeEnd tokens ++ rest ∧ headType rest = .symbol .endOfInput := by
  induction tokens with
  | nil => exact ⟨[], rfl, rfl⟩
  | cons k ks ih =>
    by_cases hk : k.type = .symbol .endOfInput
    · exact ⟨k :: ks, by simp [beforeEnd, hk], hk⟩
    · obtain ⟨rest, hrest, hend⟩ := ih
      refine ⟨rest, ?_, hend⟩
      rw [beforeEnd, List.takeWhile_cons_of_pos (by simpa using hk), List.cons_append]
      exact congrArg _ hrest

/-- What is before the end of the input does not depend on what is behind it. -/
theorem beforeEnd_append {ts rest : List Token} (hts : ∀ k ∈ ts, k.type ≠ .symbol .endOfInput)
    (hrest : headType rest = .symbol .endOfInput) : beforeEnd (ts ++ rest) = ts := by
  rw [beforeEnd, List.takeWhile_append_of_pos (by simpa using hts)]
  cases rest with
  | nil => simp
  | cons k ks =>
    rw [Parser.headType_cons] at hrest
    simp [hrest]

/-- Requiring the end of the input succeeds where the input is at its end. -/
theorem require_endOfInput {c : Cursor} :
    (∃ r, Parser.require (.symbol .endOfInput) c = .ok r) ↔
      headType c.rest = .symbol .endOfInput := by
  by_cases hend : c.current.type = .symbol .endOfInput
  · have hok : Parser.accept? (.symbol .endOfInput) c = .ok (some c.current, c.advance) := if_pos hend
    simp only [Parser.require, Parser.bind_of_eq_ok hok]
    exact iff_of_true ⟨_, rfl⟩ hend
  · have hmiss : Parser.accept? (.symbol .endOfInput) c = .ok (none, c.miss _) := if_neg hend
    simp only [Parser.require, Parser.bind_of_eq_ok hmiss]
    refine iff_of_false ?_ hend
    rintro ⟨_, h⟩
    cases h

/-- The program's parser accepts what the parser for expressions takes up to the end of the input. -/
theorem ofTokens_eq_ok {tokens : List Token} {t : Tree Label} :
    Tree.ofTokens tokens = .ok t ↔
      ∃ c, Parser.nested (tokens.length + 1) .expression (Cursor.ofTokens tokens) = .ok (t, c) ∧
        headType c.rest = .symbol .endOfInput := by
  have hprogram : Tree.ofTokens tokens =
      ((Parser.nested (tokens.length + 1) .expression >>= fun t =>
        Parser.keeping [t] (Parser.require (.symbol .endOfInput)) >>= fun _ => pure t)
        (Cursor.ofTokens tokens)).map (·.1) := rfl
  rw [hprogram]
  cases ht : Parser.nested (tokens.length + 1) .expression (Cursor.ofTokens tokens) with
  | error e =>
    simp only [bind, StateT.bind, Except.bind, ht]
    constructor
    · intro h
      cases h
    · rintro ⟨c, h, -⟩
      cases h
  | ok r =>
    obtain ⟨u, c⟩ := r
    rw [Parser.bind_of_eq_ok ht]
    -- trees that are kept only matter to an error
    have hkeeping : ∀ k c',
        Parser.keeping [u] (Parser.require (.symbol .endOfInput)) c = .ok (k, c') ↔
        Parser.require (.symbol .endOfInput) c = .ok (k, c') := by
      intro k c'
      simp only [Parser.keeping]
      split <;> simp_all
    cases hreq : Parser.keeping [u] (Parser.require (.symbol .endOfInput)) c with
    | error e =>
      simp only [bind, StateT.bind, Except.bind, hreq]
      constructor
      · intro h
        cases h
      · rintro ⟨c₁, h, hend⟩
        cases h
        obtain ⟨⟨k, c'⟩, hk⟩ := require_endOfInput.2 hend
        cases hreq.symm.trans ((hkeeping k c').2 hk)
    | ok r =>
      have hend := require_endOfInput.1 ⟨_, (hkeeping r.1 r.2).1 hreq⟩
      rw [Parser.bind_of_eq_ok hreq]
      constructor
      · intro h
        cases h
        exact ⟨c, rfl, hend⟩
      · rintro ⟨c₁, h, -⟩
        cases h
        rfl

/-! ### Programs and expressions -/

/-- What the parser accepts is an expression of the grammar with the tree that it returns. -/
theorem derives_of_ofTokens {tokens : List Token} {t : Tree Label}
    (h : Tree.ofTokens tokens = .ok t) : Derives .expression (beforeEnd tokens) t := by
  obtain ⟨c, hc, hend⟩ := ofTokens_eq_ok.1 h
  obtain ⟨ts, hts, ht⟩ := (isSound_nested _ .expression).takes hc
  rw [show tokens = ts ++ c.rest from hts, beforeEnd_append ht.ne_endOfInput hend]
  exact ht

/-- The parser accepts every expression of the grammar and returns its tree. -/
theorem ofTokens_of_derives {tokens : List Token} {t : Tree Label}
    (h : Derives .expression (beforeEnd tokens) t) : Tree.ofTokens tokens = .ok t := by
  obtain ⟨rest, hrest, hend⟩ := exists_eq_beforeEnd_append tokens
  have hlen := congrArg List.length hrest
  rw [List.length_append] at hlen
  have hstops : Stops .expression rest := by
    rw [Stops, hend]
    decide
  have hreads := isComplete_nested (tokens.length + 1) .expression _ t h (by omega) rest hstops
  rw [Parser.Reads, ← hrest] at hreads
  obtain ⟨e, he⟩ := hreads .empty
  exact ofTokens_eq_ok.2 ⟨_, he, hend⟩

/-- The grammar gives an expression one tree. -/
theorem Derives.unique {ts : List Token} {t t' : Tree Label} (h : Derives .expression ts t)
    (h' : Derives .expression ts t') : t = t' := by
  have hts : beforeEnd (ts ++ []) = ts := beforeEnd_append h.ne_endOfInput rfl
  have hok : Tree.ofTokens (ts ++ []) = .ok t := ofTokens_of_derives (hts.symm ▸ h)
  have hok' : Tree.ofTokens (ts ++ []) = .ok t' := ofTokens_of_derives (hts.symm ▸ h')
  exact Except.ok.inj (hok.symm.trans hok')

/-- The parser accepts exactly the expressions of the grammar in front of the end of the input, and
    returns their trees; an expression has one tree; and the parser does the same at every depth
    beyond the length of the input, so that no parse is cut short by the bound on its depth. -/
theorem ofTokens_iff_derives :
    (∀ tokens t, Tree.ofTokens tokens = .ok t ↔ Derives .expression (beforeEnd tokens) t) ∧
      (∀ ts t t', Derives .expression ts t → Derives .expression ts t' → t = t') ∧
      ∀ tokens depth, tokens.length < depth →
        Parser.nested depth .expression (Cursor.ofTokens tokens) =
          Parser.nested (tokens.length + 1) .expression (Cursor.ofTokens tokens) :=
  ⟨fun _ _ => ⟨derives_of_ofTokens, ofTokens_of_derives⟩, fun _ _ _ => Derives.unique,
    fun _ _ hdepth => nested_eq_nested _ hdepth (Nat.lt_succ_self _)⟩

end Rpal.Grammar
