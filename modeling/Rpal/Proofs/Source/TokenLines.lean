import Rpal.Proofs.Source.Lines
import Rpal.Proofs.Token.Munch

/-!
# Lines of tokens

The scanner counts lines as it goes: at a newline among the blank characters, at one in a string, and
at one behind a backslash. The line of an address is found by counting the newlines before it from
scratch. The two counts agree. A piece moves the scanner on by as many lines as it has newlines
(`Piece.next_eq_ok_iff`), since words, numbers, operators and comments have none, and a token has the
line on which it starts, so that the newlines of a string count only for what is behind the string.

## Key results

- `Splits.exists_between_of_mem_tokens`: a lexeme is a part of the text, and its line counts the
  newlines before it
- `SourceFile.line_eq_lineNumber_of_tokens`: the line of a token is the line of its address
-/

namespace Rpal

open Text (byteLength)

/-- A lexeme stands between two parts of the text, on the line that the newlines in the first part
    make. -/
theorem Splits.exists_between_of_mem_tokens {text rest : List Char} {segs : List Segment}
    (h : Splits text segs rest) {base line : Nat} {k : Token}
    (hk : k ∈ Segment.tokens base line segs) :
    ∃ before taken after, text = before ++ (taken ++ after) ∧
      k.span = { start := base + byteLength before, length := byteLength taken } ∧
      k.line = line + before.count '\n' := by
  induction h generalizing base line with
  | nil => cases hk
  | @cons seg follow segs rest _ _ ih =>
    rw [Segment.tokens, List.mem_append] at hk
    obtain hk | hk := hk
    · cases hlexeme : seg.lexeme? with
      | none => simp [hlexeme] at hk
      | some l =>
        rw [hlexeme, Option.map_some, Option.toList_some, List.mem_singleton] at hk
        subst hk
        exact ⟨[], seg.chars, follow, rfl, rfl, rfl⟩
    · -- what is behind the segment starts behind all of its newlines
      obtain ⟨before, taken, after, rfl, hspan, hline⟩ := ih hk
      refine ⟨seg.chars ++ before, taken, after, by rw [List.append_assoc], ?_, ?_⟩
      · rw [hspan, Text.byteLength_append, Nat.add_assoc]
      · rw [hline, List.count_append, Nat.add_assoc]

namespace SourceFile

variable {f : SourceFile} {tokens : List Token} {k : Token}

/-- A token of a file stands between two parts of the file; the end of the input stands behind all
    characters. -/
theorem exists_between_of_mem_tokens (h : f.tokens = .ok tokens) (hk : k ∈ tokens) :
    ∃ before taken after, f.chars = before ++ (taken ++ after) ∧
      k.span = { start := f.start + byteLength before, length := byteLength taken } ∧
      k.line = 1 + before.count '\n' := by
  obtain ⟨segs, hsplits, rfl⟩ := Token.exists_splits_of_scan h
  rw [List.mem_append, List.mem_singleton] at hk
  obtain hk | rfl := hk
  · exact hsplits.exists_between_of_mem_tokens hk
  · exact ⟨f.chars, [], [], (List.append_nil _).symm, rfl, rfl⟩

/-- In a file that fits into the addresses, so do the tokens. The line that the scanner counted for a
    token is the number of the line that holds the token's address, and there is such a line in the
    file. -/
theorem line_eq_lineNumber_of_tokens (hfits : f.start + f.size < 2 ^ 32)
    (h : f.tokens = .ok tokens) (hk : k ∈ tokens) :
    k.span.stop < 2 ^ 32 ∧ k.line = f.lineNumber k.span.start ∧
      ∃ l, f.line? k.span.start = some l ∧ l.number = k.line := by
  obtain ⟨before, taken, after, htext, hspan, hline⟩ := exists_between_of_mem_tokens h hk
  have hfound := line?_eq_some htext
  have hstart : k.span.start = f.start + byteLength before := congrArg Span.start hspan
  rw [← hstart] at hfound
  obtain ⟨parts, hcut, hparts⟩ := Option.map_eq_some_iff.1 hfound
  -- the number of the line that was found is the number of the line that holds the address
  have hnumber : f.lineNumber k.span.start = 1 + before.count '\n' := congrArg Line.number hparts
  refine ⟨?_, hline.trans hnumber.symm, _, hfound, hline.symm⟩
  -- the token is a part of the file, and so are its bytes
  rw [size, htext, Text.byteLength_append, Text.byteLength_append] at hfits
  rw [hspan]
  show f.start + byteLength before + byteLength taken < 2 ^ 32
  omega

/-- Behind a string of three lines, whose second newline is escaped, and a comment, a word and the
    end of the input are on the fifth line of the second file. -/
theorem line_eq_lineNumber_of_tokens_behindString :
    let f : SourceFile := { name := "second", start := 15, content := "\n'a\nb\\\nc' // d\nxy" }
    let string : Token :=
      { lexeme := .string "a\nb\\\nc", span := { start := 16, length := 8 }, line := 2 }
    let word : Token := { lexeme := .identifier "xy", span := { start := 30, length := 2 }, line := 5 }
    let stop : Token :=
      { lexeme := .symbol .endOfInput, span := { start := 32, length := 0 }, line := 5 }
    f.start + f.size < 2 ^ 32 ∧ f.tokens = .ok [string, word, stop] ∧
      ∀ k ∈ [string, word, stop], k.span.stop < 2 ^ 32 ∧ k.line = f.lineNumber k.span.start ∧
        ∃ l, f.line? k.span.start = some l ∧ l.number = k.line := by
  intro f string word stop
  have hfits : f.start + f.size < 2 ^ 32 := by decide
  have htokens : f.tokens = .ok [string, word, stop] := by decide +kernel
  exact ⟨hfits, htokens, fun k hk => line_eq_lineNumber_of_tokens hfits htokens hk⟩

end SourceFile

end Rpal
