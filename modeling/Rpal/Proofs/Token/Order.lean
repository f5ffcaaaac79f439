import Rpal.Proofs.Token.Munch

/-!
# The order of tokens

The tokens of a text start at different addresses, one behind the other, because every piece takes
at least one character. Their lines are counted from 1. So no two tokens are the same, and none is
the token that stands for the end of an input without one.

## Key results

- `SourceFile.nodup_tokens`: no two tokens are the same
- `SourceFile.missing_notMem_tokens`: the end of the input is a token of its own
-/

namespace Rpal

namespace Text

/-- A character has at least one byte. -/
theorem byteLength_pos {cs : List Char} (h : cs ≠ []) : 0 < byteLength cs := by
  obtain ⟨c, cs, rfl⟩ := List.exists_cons_of_ne_nil h
  have hc : 0 < c.utf8Size := c.utf8Size_pos
  rw [byteLength_cons]
  omega

end Text

namespace Token

/-- What is known of the tokens `done` that were found before `address`, whose last comes first. -/
structure Found (address : Nat) (done : List Token) : Prop where
  sorted : done.Pairwise fun k k' => k'.span.start < k.span.start
  before : ∀ k ∈ done, k.span.start < address
  counted : ∀ k ∈ done, 0 < k.line

variable {address line : Nat} {done tokens : List Token} {text : List Char}

/-- Another token is found at `address`, and the next ones behind it. -/
theorem Found.cons (h : Found address done) {k : Token} (hk : k.span.start = address)
    (hline : 0 < k.line) {next : Nat} (hnext : address < next) : Found next (k :: done) where
  sorted := List.pairwise_cons.2 ⟨fun k' hk' => hk ▸ h.before k' hk', h.sorted⟩
  before := List.forall_mem_cons.2 ⟨hk ▸ hnext, fun k' hk' => Nat.lt_trans (h.before k' hk') hnext⟩
  counted := List.forall_mem_cons.2 ⟨hline, h.counted⟩

/-- A piece that is no token only moves the address on. -/
theorem Found.mono (h : Found address done) {next : Nat} (hnext : address ≤ next) :
    Found next done :=
  { h with before := fun k hk => Nat.lt_of_lt_of_le (h.before k hk) hnext }

/-- Scanning goes on behind the tokens that were found, until all of them are. -/
theorem found_of_scanFrom (h : scanFrom address line done text = .ok tokens) (hline : 0 < line)
    (hdone : Found address done) : ∃ stop, Found stop tokens.reverse := by
  induction hlen : text.length using Nat.strongRecOn generalizing address line done text with
  | ind n ih =>
    cases text with
    | nil =>
      rw [scanFrom] at h
      obtain rfl := Except.ok.inj h
      rw [List.reverse_reverse]
      exact ⟨address + 1, hdone.cons rfl hline (Nat.lt_succ_self _)⟩
    | cons c cs =>
      rw [scanFrom] at h
      split at h
      · cases h
      · next p hnext =>
        have hlt : p.rest.length < n := hlen ▸ Piece.rest_lt hnext
        -- a piece is not empty, so that the next one starts at a larger address
        have hshift := Text.byteLength_pos (Piece.taken_ne_nil hnext)
        have hbehind : p.lineBehind = line + p.taken.count '\n' :=
          (Piece.next_eq_ok_iff.1 hnext).2.2
        refine ih _ hlt h (by omega) ?_ rfl
        cases hlexeme : p.lexeme? with
        | none =>
          simp only [Piece.token?, hlexeme, Option.map_none, Option.toList_none, List.nil_append]
          exact hdone.mono (by omega)
        | some lexeme =>
          simp only [Piece.token?, hlexeme, Option.map_some, Option.toList_some,
            List.singleton_append]
          exact hdone.cons rfl hline (by omega)

end Token

namespace SourceFile

variable {f : SourceFile} {tokens : List Token}

/-- The tokens of a file are found one behind the other. -/
theorem found_tokens (h : f.tokens = .ok tokens) : ∃ stop, Token.Found stop tokens.reverse :=
  Token.found_of_scanFrom h Nat.one_pos ⟨.nil, nofun, nofun⟩

/-- No two tokens of a file are the same. -/
theorem nodup_tokens (h : f.tokens = .ok tokens) : tokens.Nodup := by
  obtain ⟨stop, hfound⟩ := found_tokens h
  rw [← List.nodup_reverse]
  refine hfound.sorted.imp ?_
  rintro k k' hlt rfl
  exact Nat.lt_irrefl _ hlt

/-- The tokens of a file mark its end themselves. -/
theorem missing_notMem_tokens (h : f.tokens = .ok tokens) : Token.missing ∉ tokens := by
  obtain ⟨stop, hfound⟩ := found_tokens h
  intro hmem
  have hpos : 0 < Token.missing.line := hfound.counted _ (List.mem_reverse.2 hmem)
  exact Nat.lt_irrefl 0 hpos

end SourceFile

end Rpal
