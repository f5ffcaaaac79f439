import Rpal.Proofs.Token.Munch

/-!
# Lexemes and their spellings

A lexeme is spelled by the characters that it is read from. Lexemes that are spelled one behind the
other, with blank characters between them, are read back: a blank character continues no word, no
number and no run of operator characters, and what a string holds is not looked at until its closing
quote.

## Key results

- `Lexeme.munches_spelling`: a lexeme is read from its spelling, if what follows does not continue it
- `SourceFile.tokens_of_spellings`: the lexemes of a text made of spellings and blank characters
-/

namespace Rpal

namespace Lexeme

/-- The characters of the lexeme in a program. -/
def spelling : Lexeme → List Char
  | identifier name => name.toList
  | integer digits => digits.toList
  | string text => '\x27' :: text.toList ++ ['\x27']
  | symbol s => s.spelling.toList

/-- The lexeme has a spelling of its own: an identifier is a word that is not reserved, an integer
    consists of digits, every quote of a string is part of an escape, the quote behind it is not,
    and a symbol is not the end of the input. -/
def IsSpellable : Lexeme → Prop
  | identifier name => IsWord name.toList ∧ ∀ s ∈ Symbol.keywords, s.spelling ≠ name
  | integer digits => digits.toList ≠ [] ∧ ∀ c ∈ digits.toList, c.isDigit = true
  | string text => HasNoEnd text.toList ∧ ¬Escapes text.toList
  | symbol s => s ≠ .endOfInput

end Lexeme

theorem endsRun_nil (class? : Char → Bool) : EndsRun class? [] := by
  rintro d ⟨⟩

/-- A character of another class ends a run. -/
theorem endsRun_cons {class? : Char → Bool} {c : Char} (hc : class? c = false) (cs : List Char) :
    EndsRun class? (c :: cs) := by
  rintro d ⟨⟩
  exact hc

/-- Nothing, or a blank character and what follows it. -/
def StartsBlank (rest : List Char) : Prop :=
  ∀ c ∈ rest.head?, Text.isBlank c = true

/-- A blank character ends every run. -/
theorem StartsBlank.endsRun {rest : List Char} (h : StartsBlank rest) {class? : Char → Bool}
    (hclass : ∀ c, class? c = true → Text.isBlank c = false) : EndsRun class? rest := by
  intro c hc
  rw [← Bool.not_eq_true]
  intro hrun
  cases (hclass c hrun).symm.trans (h c hc)

/-- A gap of blanks may be put in front. -/
theorem StartsBlank.append {gap rest : List Char} (hgap : ∀ c ∈ gap, Text.isBlank c = true)
    (h : gap = [] → StartsBlank rest) : StartsBlank (gap ++ rest) := by
  cases gap with
  | nil => exact h rfl
  | cons c gap =>
    rintro d ⟨⟩
    exact hgap c (List.mem_cons_self ..)

/-- No word goes on with a blank. -/
theorem not_isBlank_of_isWordRest {c : Char} (h : isWordRest c = true) :
    Text.isBlank c = false := by
  simp only [isWordRest, Char.isAlphanum, Bool.or_eq_true, decide_eq_true_eq] at h
  obtain (h | h) | rfl := h
  · exact not_isBlank_of_isWordStart h
  · exact (classes_of_isDigit h).1
  · decide

/-- The reserved words are words. -/
theorem isWord_of_mem_keywords {s : Symbol} (h : s ∈ Symbol.keywords) : IsWord s.spelling.toList := by
  have hall : ∀ s ∈ Symbol.keywords, s.spelling.toList.head?.any isWordStart = true ∧
      s.spelling.toList.tail.all isWordRest = true :=
    forall_mem_of_all (by decide +kernel)
  obtain ⟨hstart, hrest⟩ := hall s h
  cases hchars : s.spelling.toList with
  | nil =>
    rw [hchars] at hstart
    cases hstart
  | cons c cs =>
    rw [hchars] at hstart hrest
    exact ⟨c, cs, rfl, hstart, List.all_eq_true.1 hrest⟩

/-- Punctuation is spelled by one character. -/
theorem exists_spelling_of_mem_punctuation {s : Symbol} (h : s ∈ Symbol.punctuation) :
    ∃ c, s.spelling.toList = [c] := by
  have hall : ∀ s ∈ Symbol.punctuation, s.spelling.toList.length = 1 :=
    forall_mem_of_all (by decide +kernel)
  exact List.length_eq_one_iff.1 (hall s h)

namespace Symbol

/-- A symbol other than the end of the input is of one of the three classes. -/
theorem mem_classes {s : Symbol} (h : s ≠ endOfInput) :
    s ∈ keywords ∨ s ∈ operators ∨ s ∈ punctuation := by
  have hmem := mem_all s
  simp only [all, List.mem_append, List.mem_singleton, h, or_false] at hmem
  exact or_assoc.1 hmem

end Symbol

namespace Lexeme

/-- What stands behind the lexeme does not continue it. -/
def EndsBefore : Lexeme → List Char → Prop
  | identifier _, rest => EndsRun isWordRest rest
  | integer _, rest => EndsRun Char.isDigit rest
  | string _, _ => True
  | symbol s, rest => (s ∈ Symbol.keywords → EndsRun isWordRest rest) ∧
      (s ∈ Symbol.operators → EndsRun isOperatorChar rest)

/-- A lexeme is read from its spelling, if what stands behind it does not continue it. -/
theorem munches_spelling {l : Lexeme} (h : l.IsSpellable) {rest : List Char}
    (hrest : l.EndsBefore rest) : Segment.Munches ⟨some l, l.spelling⟩ rest := by
  cases l with
  | identifier name =>
    have hmunches := Segment.Munches.identifier (by rw [String.ofList_toList]; exact h.2) h.1 hrest
    rwa [String.ofList_toList] at hmunches
  | integer digits =>
    have hmunches := Segment.Munches.integer h.1 h.2 hrest
    rwa [String.ofList_toList] at hmunches
  | string text =>
    have hmunches : Segment.Munches ⟨some (.string (String.ofList text.toList)), _⟩ rest :=
      .string h.1 h.2
    rwa [String.ofList_toList] at hmunches
  | symbol s =>
    -- reserved words, operators and punctuation are ended by different characters
    obtain hs | hs | hs := Symbol.mem_classes h
    · exact .keyword hs (String.ofList_toList).symm (isWord_of_mem_keywords hs) (hrest.1 hs)
    · exact .operator hs (String.ofList_toList).symm (hrest.2 hs)
    · obtain ⟨c, hc⟩ := exists_spelling_of_mem_punctuation hs
      have hspelling : s.spelling = String.ofList [c] := by rw [← hc, String.ofList_toList]
      have hmunches : Segment.Munches ⟨some (.symbol s), [c]⟩ rest := .punctuation hs hspelling
      rwa [← hc] at hmunches

/-- A blank character continues no lexeme. -/
theorem endsBefore_of_startsBlank (l : Lexeme) {rest : List Char} (h : StartsBlank rest) :
    l.EndsBefore rest := by
  have hword := h.endsRun fun _ => not_isBlank_of_isWordRest
  cases l with
  | identifier => exact hword
  | integer => exact h.endsRun fun _ hc => (classes_of_isDigit hc).1
  | string => trivial
  | symbol => exact ⟨fun _ => hword, fun _ => h.endsRun fun _ hc => (classes_of_isOperatorChar hc).1⟩

end Lexeme

/-! ### Reading -/

/-- The tokens of segments have the lexemes of the segments. -/
theorem Segment.map_lexeme_tokens (address line : Nat) (segs : List Segment) :
    (tokens address line segs).map Token.lexeme = segs.filterMap lexeme? := by
  induction segs generalizing address line with
  | nil => rfl
  | cons seg segs ih =>
    rw [tokens, List.map_append, ih, List.filterMap_cons]
    cases seg.lexeme? <;> rfl

/-- The text is made of segments, and these are the lexemes among them. -/
def Reads (text : List Char) (lexemes : List Lexeme) : Prop :=
  ∃ segs, Splits text segs [] ∧ segs.filterMap Segment.lexeme? = lexemes

namespace Reads

variable {text gap : List Char} {lexemes : List Lexeme}

/-- Nothing is read as no token. -/
theorem nil : Reads [] [] :=
  ⟨[], .nil, rfl⟩

/-- Blank characters in front of a text are not read. -/
theorem blanks (hgap : ∀ c ∈ gap, Text.isBlank c = true) (h : Reads text lexemes) :
    Reads (gap ++ text) lexemes := by
  induction gap with
  | nil => exact h
  | cons c gap ih =>
    obtain ⟨hc, hgap⟩ := List.forall_mem_cons.1 hgap
    obtain ⟨segs, hsplits, hlexemes⟩ := ih hgap
    have hblank : Segment.Munches ⟨none, [c]⟩ (gap ++ text) := .blank hc
    exact ⟨_, .cons hblank hsplits, hlexemes⟩

/-- A lexeme in front of a text that does not continue it is read first. -/
theorem lexeme {l : Lexeme} (hl : l.IsSpellable) (hends : l.EndsBefore text)
    (h : Reads text lexemes) : Reads (l.spelling ++ text) (l :: lexemes) := by
  obtain ⟨segs, hsplits, rfl⟩ := h
  exact ⟨_, .cons (l.munches_spelling hl hends) hsplits, rfl⟩

end Reads

/-- A file whose text is read as some lexemes has tokens with these lexemes, and one for the end of
    the input. -/
theorem SourceFile.exists_tokens_of_reads {f : SourceFile} {lexemes : List Lexeme}
    (h : Reads f.chars lexemes) : ∃ tokens, f.tokens = .ok tokens ∧
      tokens.map Token.lexeme = lexemes ++ [.symbol .endOfInput] := by
  obtain ⟨segs, hsplits, rfl⟩ := h
  refine ⟨_, Token.scan_of_splits hsplits f.start, ?_⟩
  rw [List.map_append, Segment.map_lexeme_tokens]
  rfl

/-! ### Spellings behind each other -/

/-- The spellings of lexemes, each behind a gap. -/
def spellAll (parts : List (List Char × Lexeme)) : List Char :=
  parts.flatMap fun part => part.1 ++ part.2.spelling

/-- Spellings with blank characters between them are read as the lexemes that are spelled. -/
theorem reads_spellAll {parts : List (List Char × Lexeme)} {behind : List Char}
    (hlexemes : ∀ part ∈ parts, part.2.IsSpellable)
    (hblank : ∀ part ∈ parts, ∀ c ∈ part.1, Text.isBlank c = true)
    (hgaps : ∀ part ∈ parts.tail, part.1 ≠ [])
    (hbehind : ∀ c ∈ behind, Text.isBlank c = true) :
    Reads (spellAll parts ++ behind) (parts.map Prod.snd) := by
  induction parts with
  | nil => simpa [spellAll] using Reads.nil.blanks hbehind
  | cons part parts ih =>
    obtain ⟨hlexeme, hlexemes⟩ := List.forall_mem_cons.1 hlexemes
    obtain ⟨hgap, hblank⟩ := List.forall_mem_cons.1 hblank
    have hrest := ih hlexemes hblank fun part hpart => hgaps part (List.mem_of_mem_tail hpart)
    -- the next gap, or what is behind all lexemes, starts with a blank character
    have hstarts : StartsBlank (spellAll parts ++ behind) := by
      cases parts with
      | nil =>
        rw [spellAll, List.flatMap_nil, List.nil_append, ← List.append_nil behind]
        exact .append hbehind fun _ => nofun
      | cons next parts =>
        rw [spellAll, List.flatMap_cons, List.append_assoc, List.append_assoc]
        exact .append (hblank next (List.mem_cons_self ..)) fun hnil =>
          absurd hnil (hgaps next (List.mem_cons_self ..))
    have hall := (hrest.lexeme hlexeme (part.2.endsBefore_of_startsBlank hstarts)).blanks hgap
    simpa [spellAll] using hall

namespace SourceFile

/-- A text that consists of spellings, with one or more blank characters between any two of them,
    has the lexemes that are spelled, and the end of the input behind them. -/
theorem tokens_of_spellings {f : SourceFile} {parts : List (List Char × Lexeme)}
    {behind : List Char} (htext : f.chars = spellAll parts ++ behind)
    (hlexemes : ∀ part ∈ parts, part.2.IsSpellable)
    (hblank : ∀ part ∈ parts, ∀ c ∈ part.1, Text.isBlank c = true)
    (hgaps : ∀ part ∈ parts.tail, part.1 ≠ [])
    (hbehind : ∀ c ∈ behind, Text.isBlank c = true) :
    ∃ tokens, f.tokens = .ok tokens ∧
      tokens.map Token.lexeme = parts.map Prod.snd ++ [.symbol .endOfInput] := by
  have hreads := reads_spellAll hlexemes hblank hgaps hbehind
  rw [← htext] at hreads
  exact exists_tokens_of_reads hreads

/-- An identifier that starts as a reserved word does, a string that holds a quote, the start of a
    comment and a newline, the operator for powers and two for products, a reserved word and a number
    with zeros in front, between blanks of several kinds. -/
theorem tokens_of_spellings_prefixes :
    let parts : List (List Char × Lexeme) :=
      [([], .identifier "lets_"), ([' '], .string "\\\'//\n\n"), (['\t', '\n'], .symbol .power),
        ([' '], .symbol .star), (['\u00a0'], .symbol .star), ([' '], .symbol .letKw),
        (['\n'], .integer "007")]
    let f : SourceFile :=
      { name := "", start := 3
        content := "lets_ '\\\'//\n\n'\t\n** *\u00a0* let\n007 " }
    (f.chars = spellAll parts ++ [' '] ∧ (∀ part ∈ parts, part.2.IsSpellable) ∧
      (∀ part ∈ parts, ∀ c ∈ part.1, Text.isBlank c = true) ∧ (∀ part ∈ parts.tail, part.1 ≠ []) ∧
      ∀ c ∈ [' '], Text.isBlank c = true) ∧
      ∃ tokens, f.tokens = .ok tokens ∧
        tokens.map Token.lexeme = parts.map Prod.snd ++ [.symbol .endOfInput] := by
  intro parts f
  have htext : f.chars = spellAll parts ++ [' '] := by decide +kernel
  have hlexemes : ∀ part ∈ parts, part.2.IsSpellable := by
    have hstring : HasNoEnd "\\\'//\n\n".toList := by
      rw [← closeString_eq_none_iff 1]
      decide +kernel
    have hescapes : ¬Escapes "\\\'//\n\n".toList := by
      unfold Escapes
      decide +kernel
    have hword : IsWord "lets_".toList :=
      ⟨'l', ['e', 't', 's', '_'], by decide +kernel, by decide, forall_mem_of_all (by decide)⟩
    have hdigits : ∀ c ∈ "007".toList, c.isDigit = true := forall_mem_of_all (by decide +kernel)
    simp only [parts, List.forall_mem_cons]
    exact ⟨⟨hword, by decide +kernel⟩, ⟨hstring, hescapes⟩, nofun, nofun, nofun, nofun,
      ⟨by decide +kernel, hdigits⟩, nofun⟩
  have hblank : ∀ part ∈ parts, ∀ c ∈ part.1, Text.isBlank c = true := by
    have hall : (parts.all fun part => part.1.all Text.isBlank) = true := by decide +kernel
    simpa [List.all_eq_true] using hall
  have hgaps : ∀ part ∈ parts.tail, part.1 ≠ [] := by simp [parts]
  have hbehind : ∀ c ∈ [' '], Text.isBlank c = true := forall_mem_of_all (by decide)
  exact ⟨⟨htext, hlexemes, hblank, hgaps, hbehind⟩,
    tokens_of_spellings htext hlexemes hblank hgaps hbehind⟩

end SourceFile

end Rpal
