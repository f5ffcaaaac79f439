import Rpal.Program
import Rpal.Proofs.Grammar.Expected
import Rpal.Proofs.Source.Lines
import Rpal.Proofs.Token.Munch

/-!
# Reports point at the error

Every diagnostic of a file's text is about a place between two characters of the file. A range starts
with a character that is no newline and consists of whole characters, so at least its first one can
be marked on the line where it starts. The report therefore shows the line of the file that holds
the place, and its marks are exact in characters, however many bytes these take.

## Key results

- `SourceFile.isPlaced_of_tree`: the diagnostics of a file are about places in it
- `SourceFile.report?_of_tree`: what is in their reports
-/

namespace Rpal

open Text (byteLength lastLine firstLine)

/-! ### Where tokens stand -/

/-- A lexeme starts with a character that is no newline. -/
theorem Segment.Munches.exists_eq_cons {seg : Segment} {rest : List Char} (h : seg.Munches rest)
    {l : Lexeme} (hl : seg.lexeme? = some l) : ∃ c cs, seg.chars = c :: cs ∧ c ≠ '\n' := by
  -- a newline is a blank, and no lexeme starts with one
  have hblank : Text.isBlank '\n' = true := by decide
  have hword {word : List Char} (h : IsWord word) : ∃ c cs, word = c :: cs ∧ c ≠ '\n' := by
    obtain ⟨c, cs, rfl, hstart, -⟩ := h
    refine ⟨c, cs, rfl, ?_⟩
    rintro rfl
    cases hblank.symm.trans (not_isBlank_of_isWordStart hstart)
  cases h with
  | blank => cases hl
  | comment => cases hl
  | keyword _ _ h => exact hword h
  | identifier _ h => exact hword h
  | integer hne hall =>
    obtain ⟨c, cs, rfl⟩ := List.exists_cons_of_ne_nil hne
    refine ⟨c, cs, rfl, ?_⟩
    rintro rfl
    cases hblank.symm.trans (classes_of_isDigit (hall _ (List.mem_cons_self ..))).1
  | operator hs hspelling =>
    obtain ⟨hne, hall, -⟩ := chars_of_operator hs hspelling
    obtain ⟨c, cs, rfl⟩ := List.exists_cons_of_ne_nil hne
    refine ⟨c, cs, rfl, ?_⟩
    rintro rfl
    cases hall
  | punctuation hs hspelling =>
    refine ⟨_, [], rfl, ?_⟩
    rintro rfl
    cases hblank.symm.trans (classes_of_punctuation hs hspelling).1
  | string => exact ⟨_, _, rfl, by decide⟩

/-- `range`, of a text that starts at `base`, is that of `marked`, which stands behind `before`. -/
structure IsRange (base : Nat) (text : List Char) (range : Span) (before marked : List Char) :
    Prop where
  text_eq : ∃ rest, text = before ++ (marked ++ rest)
  start_eq : range.start = base + byteLength before
  length_eq : range.length = byteLength marked
  head_ne : ∃ c cs, marked = c :: cs ∧ c ≠ '\n'

/-- Every lexeme of a text that is cut into segments stands in it. -/
theorem Splits.exists_isRange {text rest : List Char} {segs : List Segment} (h : Splits text segs rest)
    {base line : Nat} {k : Token} (hk : k ∈ Segment.tokens base line segs) :
    ∃ before marked, IsRange base text k.span before marked := by
  induction h generalizing base line with
  | nil => cases hk
  | @cons seg follow segs rest hseg _ ih =>
    rw [Segment.tokens, List.mem_append] at hk
    obtain hk | hk := hk
    · cases hlexeme : seg.lexeme? with
      | none => simp [hlexeme] at hk
      | some l =>
        rw [hlexeme, Option.map_some, Option.toList_some, List.mem_singleton] at hk
        subst hk
        exact ⟨[], seg.chars, ⟨follow, rfl⟩, rfl, rfl, hseg.exists_eq_cons hlexeme⟩
    · obtain ⟨before, marked, ⟨more, htext⟩, hstart, hlength, hhead⟩ := ih hk
      refine ⟨seg.chars ++ before, marked, ⟨more, ?_⟩, ?_, hlength, hhead⟩
      · rw [htext, List.append_assoc]
      · rw [hstart, Text.byteLength_append, Nat.add_assoc]

/-! ### Where diagnostics stand -/

/-- The place is between the characters `before` and the other characters of the text, which starts
    at `base`. If the place is a range, it consists of whole characters, and the first of them is no
    newline. -/
inductive Highlight.IsPlaced (base : Nat) (text : List Char) (before : List Char) :
    Highlight → Prop where
  | point {after} : text = before ++ after → IsPlaced base text before (.point (base + byteLength before))
  | span {range marked} : IsRange base text range before marked →
      IsPlaced base text before (.span range)

/-- The carets below the line that holds a place, and where they stand. -/
theorem Highlight.IsPlaced.exists_marks_eq {base : Nat} {text before : List Char} {h : Highlight}
    (hplaced : h.IsPlaced base text before) : ∃ after carets, text = before ++ after ∧
      h.start = base + byteLength before ∧ 0 < carets ∧
      (∀ address, h = .point address → carets = 1) ∧
      (∀ range, h = .span range → carets = range.charCount
        (base + (byteLength before - byteLength (lastLine before)))
        (lastLine before ++ firstLine after)) ∧
      ∀ number, h.marks ⟨number, base + (byteLength before - byteLength (lastLine before)),
        lastLine before ++ firstLine after⟩ =
          List.replicate (lastLine before).length ' ' ++ List.replicate carets '^' := by
  have hstart : base + byteLength before =
      base + (byteLength before - byteLength (lastLine before)) + byteLength (lastLine before) := by
    have := Text.byteLength_lastLine_le before
    omega
  cases hplaced with
  | @point after htext =>
    refine ⟨after, 1, htext, rfl, Nat.one_pos, fun _ _ => rfl, ?_, fun number => ?_⟩
    · rintro _ ⟨⟩
    · rw [hstart]
      exact marks_point
  | @span range marked hrange =>
    obtain ⟨⟨rest, htext⟩, hrangeStart, hlength, c, cs, rfl, hc⟩ := hrange
    have hfirst : firstLine (c :: cs ++ rest) = c :: firstLine (cs ++ rest) := by
      simp [firstLine, hc]
    have hprefix : firstLine (c :: cs ++ rest) <+: c :: cs ++ rest := List.takeWhile_prefix _
    have hne : firstLine (c :: cs ++ rest) ≠ [] := hfirst ▸ List.cons_ne_nil _ _
    refine ⟨c :: cs ++ rest, _, htext, hrangeStart, ?_, ?_, ?_,
      fun number => marks_span hprefix hne (hrangeStart.trans hstart) hlength⟩
    · -- the first character of the range is on the line
      rw [Span.charCount_append (by omega), hfirst, Span.charCount, if_pos]
      · omega
      · rw [Span.stop, hlength, Text.byteLength_cons]
        omega
    · rintro _ ⟨⟩
    · rintro _ ⟨⟩
      rfl

/-- The scanner's errors are about places of the text. -/
theorem Offends.isPlaced {base : Nat} {before rest : List Char} {e : ScanError}
    (h : Offends (base + byteLength before) rest e) :
    e.diagnostic.highlight.IsPlaced base (before ++ rest) before := by
  cases h with
  | unexpected => exact .point rfl
  | unterminated =>
    exact .span ⟨⟨[], by rw [List.append_nil]⟩, rfl, rfl, _, _, rfl, by decide⟩
  | @unknownOperator run rest hne hall =>
    refine .span ⟨⟨rest, rfl⟩, rfl, rfl, ?_⟩
    obtain ⟨c, cs, rfl⟩ := List.exists_cons_of_ne_nil hne
    refine ⟨c, cs, rfl, ?_⟩
    rintro rfl
    cases hall _ (List.mem_cons_self ..)

/-- A parse of tokens that mark their end stops at one of them. -/
theorem Grammar.actual_mem {tokens : List Token} {eof : Token} {e : SyntaxError}
    (heof : eof.type = .symbol .endOfInput) (h : Tree.ofTokens (tokens ++ [eof]) = .error e) :
    e.actual ∈ tokens ++ [eof] := by
  obtain ⟨before, behind, hsplit, hstops⟩ := exists_stopsAt h
  obtain ⟨_, _, hstop⟩ := hstops 0
  cases behind with
  | nil =>
    -- all tokens were taken, so they are a program
    rw [List.append_nil] at hsplit
    obtain ⟨t, ht⟩ := (viable_endOfInput_iff heof).1 (hsplit.symm ▸ hstop.viable)
    have hbefore : beforeEnd (tokens ++ [eof]) = tokens := beforeEnd_append ht.ne_endOfInput heof
    cases h.symm.trans (ofTokens_of_derives (hbefore.symm ▸ ht))
  | cons k behind =>
    rw [hstop.actual, hsplit]
    exact List.mem_append_right _ (List.mem_cons_self ..)

namespace SourceFile

variable {f : SourceFile} {d : Diagnostic}

/-- A text has no tree if it has no tokens, or if these have none. -/
theorem tree_eq_error_iff : f.tree = .error d ↔
    (∃ e, f.tokens = .error e ∧ e.diagnostic = d) ∨
      ∃ tokens e, f.tokens = .ok tokens ∧ Tree.ofTokens tokens = .error e ∧ e.diagnostic = d := by
  rw [tree]
  cases f.tokens with
  | error e => simp [Except.mapError, bind, Except.bind]
  | ok tokens =>
    cases hparse : Tree.ofTokens tokens <;> simp [Except.mapError, bind, Except.bind, hparse]

/-- The errors of a file's text are about places in the file. -/
theorem isPlaced_of_tree (h : f.tree = .error d) :
    ∃ before, d.highlight.IsPlaced f.start f.chars before := by
  obtain ⟨e, htokens, rfl⟩ | ⟨tokens, e, htokens, hparse, rfl⟩ := tree_eq_error_iff.1 h
  · obtain ⟨segs, rest, hsplits, hoffends⟩ := Token.exists_offends_of_scan htokens
    rw [hsplits.text_eq]
    exact ⟨_, hoffends.isPlaced⟩
  · obtain ⟨segs, hsplits, rfl⟩ := Token.exists_splits_of_scan htokens
    have hmem := Grammar.actual_mem rfl hparse
    rw [List.mem_append, List.mem_singleton] at hmem
    -- the token that is not expected is one of the text, or the end of the input behind it
    obtain hmem | hend := hmem
    · obtain ⟨before, marked, hrange⟩ := hsplits.exists_isRange hmem
      obtain ⟨rest, htext⟩ := hrange.text_eq
      refine ⟨before, ?_⟩
      rw [SyntaxError.diagnostic]
      split
      · rw [hrange.start_eq]
        exact .point htext
      · exact .span hrange
    · rw [SyntaxError.diagnostic, hend]
      exact ⟨f.chars, .point (List.append_nil _).symm⟩

/-- A text that is no program is reported at its error. The report names the file and the line that
    holds the error, counted by newlines, and shows that line as it is in the file. Below it, there
    are as many blanks as the line has characters before the error, and at least one caret: a single
    one for an unexpected character or the end of the input, and for a range as many as the line has
    characters in it. -/
theorem report?_of_tree {entries : List (String × String)}
    (hf : f ∈ (SourceFiles.ofList entries).files) (hd : f.tree = .error d) :
    ∃ (before after line head : List Char) (carets : Nat),
      f.chars = before ++ after ∧
      d.highlight.start = f.start + byteLength before ∧
      (f.chars.splitOn '\n')[before.count '\n']? = some line ∧
      (before.splitOn '\n').getLast? = some head ∧ head <+: line ∧
      0 < carets ∧
      (∀ address, d.highlight = .point address → carets = 1) ∧
      (∀ range, d.highlight = .span range →
        carets = range.charCount (f.start + (byteLength before - byteLength head)) line) ∧
      d.report? (SourceFiles.ofList entries) = some
        (let number := toString (1 + before.count '\n')
         let margin := String.ofList (List.replicate number.length ' ')
         [f.name ++ ":" ++ number ++ "\n",
          margin ++ " |\n",
          number ++ " | " ++ String.ofList line ++ "\n",
          margin ++ " | " ++
            String.ofList (List.replicate head.length ' ' ++ List.replicate carets '^') ++ "\n",
          d.message ++ "\n"]) := by
  obtain ⟨before, hplaced⟩ := isPlaced_of_tree hd
  obtain ⟨after, carets, htext, hstart, hpos, hpoint, hspan, hmarks⟩ := hplaced.exists_marks_eq
  -- the file is found by the address at which the highlight starts
  have hcontains : f.contains d.highlight.start = true := by
    have hsize : f.size = byteLength before + byteLength after := by
      rw [size, htext, Text.byteLength_append]
    rw [contains, stop, hstart, hsize]
    simp
  refine ⟨before, after, lastLine before ++ firstLine after, lastLine before, carets, htext, hstart,
    ?_, Text.getLast?_splitOn before, List.prefix_append _ _, hpos, hpoint, hspan, ?_⟩
  · rw [htext, Text.getElem?_splitOn]
  · rw [Diagnostic.report?, SourceFiles.byAddress?_ofList hf hcontains]
    simp only [hstart, line?_eq_some htext, Option.map_some, Diagnostic.reportLines, hmarks,
      List.map_const', String.length_toList]

/-- In the second of two files, a string that is never closed starts on the second line, behind a
    character of two bytes, and goes on to the third. It is marked up to the end of the second. -/
theorem report?_of_tree_unterminated :
    let entries := [("first", "let x = 1 in x"), ("second", "Print\n'\u00e9' @ '\u00e9b\n1")]
    let f : SourceFile := { name := "second", start := 15, content := "Print\n'\u00e9' @ '\u00e9b\n1" }
    let d : Diagnostic :=
      { highlight := .span { start := 28, length := 6 }, message := "Unterminated string" }
    f ∈ (SourceFiles.ofList entries).files ∧ f.tree = .error d ∧
      d.report? (SourceFiles.ofList entries) = some ["second:2\n", "  |\n",
        "2 | '\u00e9' @ '\u00e9b\n", "  |       ^^^\n", "Unterminated string\n"] ∧
      ∃ (before after line head : List Char) (carets : Nat),
        f.chars = before ++ after ∧
        d.highlight.start = f.start + byteLength before ∧
        (f.chars.splitOn '\n')[before.count '\n']? = some line ∧
        (before.splitOn '\n').getLast? = some head ∧ head <+: line ∧
        0 < carets ∧
        (∀ address, d.highlight = .point address → carets = 1) ∧
        (∀ range, d.highlight = .span range →
          carets = range.charCount (f.start + (byteLength before - byteLength head)) line) ∧
        d.report? (SourceFiles.ofList entries) = some
          (let number := toString (1 + before.count '\n')
           let margin := String.ofList (List.replicate number.length ' ')
           [f.name ++ ":" ++ number ++ "\n",
            margin ++ " |\n",
            number ++ " | " ++ String.ofList line ++ "\n",
            margin ++ " | " ++
              String.ofList (List.replicate head.length ' ' ++ List.replicate carets '^') ++ "\n",
            d.message ++ "\n"]) := by
  intro entries f d
  have hf : f ∈ (SourceFiles.ofList entries).files := by decide +kernel
  have htokens : f.tokens = .error (.unterminated { start := 28, length := 6 }) := by decide +kernel
  have hd : f.tree = .error d := tree_eq_error_iff.2 (.inl ⟨_, htokens, rfl⟩)
  exact ⟨hf, hd, by decide +kernel, report?_of_tree hf hd⟩

end SourceFile

end Rpal
