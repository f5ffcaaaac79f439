import Rpal.Token.Scan
import Mathlib

/-!
# The division of a text into lexemes

What the tokens of a text are, without saying how they are found. The text is a sequence of blank
characters, comments and lexemes, where each lexeme is as long as it can be: a word, a number and a
run of operator characters are followed by a character of another class, and a string ends at its
first quote that is not part of an escape. A quote is part of an escape if an odd number of
backslashes stands before it.

A text that is no such sequence has a first place where it stops being one, and the error is about
what stands there.

The scanner keeps count of the lines while it reads. Behind a segment, it has come as many lines
further as there are newlines in the segment, because blank characters and strings are the only
segments with newlines in them.

## Key results

- `closeString_eq_some_iff`: a string is read up to its first quote that is not part of an escape
- `Piece.next_eq_ok_iff`, `Piece.next_eq_error_iff`: one piece is read exactly if it stands there
- `Piece.exists_next_of_munches`: how far the scanner comes with a segment, in characters and lines
- `Splits.unique`: a text is divided in one way only
- `Token.scan_iff_splits`: the tokens of a text are its lexemes, and an error is at the first place
  where the text cannot be divided
-/

namespace Rpal

/-! ### Strings -/

/-- A character behind these is part of an escape: an odd number of backslashes stands at their
    end. -/
def Escapes (before : List Char) : Prop :=
  Odd (before.reverse.takeWhile (· = '\\')).length

/-- Every quote among these characters is part of an escape. -/
def HasNoEnd (text : List Char) : Prop :=
  ∀ before after, text = before ++ '\x27' :: after → Escapes before

/-- Nothing is no escape. -/
theorem not_escapes_nil : ¬Escapes [] := by
  unfold Escapes
  decide

/-- An escape at the front does not change what is escaped behind it. -/
theorem escapes_escape (c : Char) (cs : List Char) : Escapes ('\\' :: c :: cs) ↔ Escapes cs := by
  unfold Escapes
  rw [List.reverse_cons, List.reverse_cons, List.append_assoc, List.takeWhile_append]
  split
  · next hall =>
    -- all of `cs` are backslashes, to which an even number is added
    by_cases hc : c = '\\'
    · simp [hc, hall, Nat.odd_add]
    · simp [hc, hall]
  · rfl

/-- Another character in front does not make an escape. -/
theorem escapes_cons {c : Char} (hc : c ≠ '\\') (cs : List Char) :
    Escapes (c :: cs) ↔ Escapes cs := by
  unfold Escapes
  rw [List.reverse_cons, List.takeWhile_append]
  split
  · next hall => simp [hc, hall]
  · rfl

/-- A character behind a backslash does not end a string, even if it is a quote. -/
theorem hasNoEnd_escape (c : Char) (cs : List Char) : HasNoEnd ('\\' :: c :: cs) ↔ HasNoEnd cs := by
  constructor
  · intro h before after heq
    exact (escapes_escape c before).1 (h _ after (by rw [heq]; rfl))
  · intro h before after heq
    match before, heq with
    | [], heq => simp at heq
    | [b], heq =>
      simp only [List.singleton_append, List.cons.injEq] at heq
      rw [← heq.1]
      unfold Escapes
      decide
    | b :: b' :: before, heq =>
      simp only [List.cons_append, List.cons.injEq] at heq
      rw [← heq.1, escapes_escape]
      exact h before after heq.2.2

/-- A plain character does not end a string. -/
theorem hasNoEnd_cons {c : Char} (hquote : c ≠ '\x27') (hc : c ≠ '\\') (cs : List Char) :
    HasNoEnd (c :: cs) ↔ HasNoEnd cs := by
  constructor
  · intro h before after heq
    exact (escapes_cons hc before).1 (h _ after (by rw [heq]; rfl))
  · intro h before after heq
    match before, heq with
    | [], heq => exact absurd (List.cons.inj heq).1 hquote
    | b :: before, heq =>
      obtain ⟨rfl, hcs⟩ := List.cons.inj heq
      exact (escapes_cons hc before).2 (h before after hcs)

/-- A quote ends a string. -/
theorem not_hasNoEnd_quote (cs : List Char) : ¬HasNoEnd ('\x27' :: cs) :=
  fun h => not_escapes_nil (h [] cs rfl)

/-- A string is not closed exactly if all quotes are part of escapes. -/
theorem closeString_eq_none_iff (line : Nat) (cs : List Char) :
    closeString line cs = none ↔ HasNoEnd cs := by
  fun_induction closeString line cs with
  | case1 => exact iff_of_true rfl fun before after heq => by simp at heq
  | case2 line cs => exact iff_of_false (Option.some_ne_none _) (not_hasNoEnd_quote cs)
  | case3 line c cs ih => rw [Option.map_eq_none_iff, ih, hasNoEnd_escape]
  | case4 line c cs hquote hescape ih =>
    rw [Option.map_eq_none_iff, ih]
    by_cases hc : c = '\\'
    · -- a backslash at the end of the text escapes nothing
      subst hc
      cases cs with
      | nil =>
        refine iff_of_true (fun before after heq => by simp at heq) fun before after heq => ?_
        cases before with
        | nil => simp at heq
        | cons b before => simp at heq
      | cons c cs => exact absurd rfl (hescape c cs rfl)
    · exact (hasNoEnd_cons hquote hc cs).symm

/-- What is read of a string has no end before its own. -/
theorem hasNoEnd_of_closeString {line : Nat} {cs : List Char} {s : ClosedString}
    (h : closeString line cs = some s) : HasNoEnd s.text ∧ ¬Escapes s.text := by
  fun_induction closeString line cs generalizing s with
  | case1 => cases h
  | case2 line cs =>
    cases h
    exact ⟨fun before after heq => by simp at heq, not_escapes_nil⟩
  | case3 line c cs ih =>
    obtain ⟨inner, hinner, rfl⟩ := Option.map_eq_some_iff.1 h
    rw [hasNoEnd_escape, escapes_escape]
    exact ih hinner
  | case4 line c cs hquote hescape ih =>
    obtain ⟨inner, hinner, rfl⟩ := Option.map_eq_some_iff.1 h
    -- a backslash with a character behind it is another case, and without one there is no end
    have hc : c ≠ '\\' := by
      rintro rfl
      cases cs with
      | nil => cases hinner
      | cons c cs => exact hescape c cs rfl rfl
    rw [hasNoEnd_cons hquote hc, escapes_cons hc]
    exact ih hinner

/-- A string ends at its first quote that is not part of an escape. The scanner has then come as many
    lines further as there are newlines in the string. -/
theorem closeString_eq_some_iff {line : Nat} {cs : List Char} {s : ClosedString} :
    closeString line cs = some s ↔ cs = s.text ++ '\x27' :: s.rest ∧
      (HasNoEnd s.text ∧ ¬Escapes s.text) ∧ s.line = line + s.text.count '\n' := by
  constructor
  · exact fun h => ⟨closeString_eq_some h, hasNoEnd_of_closeString h, closeString_line h⟩
  · obtain ⟨text, rest, stop⟩ := s
    rintro ⟨rfl, ⟨hend, hescapes⟩, hline⟩
    dsimp only at hend hescapes hline ⊢
    cases h : closeString line (text ++ '\x27' :: rest) with
    | none =>
      rw [closeString_eq_none_iff] at h
      exact absurd (h text rest rfl) hescapes
    | some s =>
      obtain ⟨text', rest', line'⟩ := s
      obtain ⟨hend', hescapes'⟩ := hasNoEnd_of_closeString h
      have hline' := closeString_line h
      -- neither of the two strings can end inside of the other
      rcases List.append_eq_append_iff.1 (closeString_eq_some h) with
        ⟨mid, htext, hmid⟩ | ⟨mid, htext, hmid⟩
      · cases mid with
        | nil => simp_all
        | cons m mid =>
          obtain ⟨rfl, rfl⟩ := List.cons.inj hmid
          exact absurd (hend' text mid htext) hescapes
      · cases mid with
        | nil => simp_all
        | cons m mid =>
          obtain ⟨rfl, rfl⟩ := List.cons.inj hmid
          exact absurd (hend text' mid htext) hescapes'

/-! ### Runs -/

/-- What follows a run of a class of characters does not continue it. -/
def EndsRun (class? : Char → Bool) (rest : List Char) : Prop :=
  ∀ c ∈ rest.head?, class? c = false

/-- What is left behind a run does not go on with it. -/
theorem endsRun_dropWhile (class? : Char → Bool) (cs : List Char) :
    EndsRun class? (cs.dropWhile class?) := by
  intro c hc
  have h := List.head?_dropWhile_not class? cs
  rw [Option.mem_def] at hc
  rw [hc] at h
  exact h

/-- The characters of a run are of its class. -/
theorem forall_mem_takeWhile (class? : Char → Bool) (cs : List Char) :
    ∀ c ∈ cs.takeWhile class?, class? c = true :=
  fun _ hc => List.mem_takeWhile_imp hc

/-- A run is read up to its end. -/
theorem takeWhile_of_endsRun {class? : Char → Bool} {run rest : List Char}
    (hrun : ∀ c ∈ run, class? c = true) (hrest : EndsRun class? rest) :
    (run ++ rest).takeWhile class? = run ∧ (run ++ rest).dropWhile class? = rest := by
  rw [List.takeWhile_append_of_pos hrun, List.dropWhile_append_of_pos hrun]
  cases rest with
  | nil => exact ⟨List.append_nil run, rfl⟩
  | cons c rest =>
    have hc : class? c = false := hrest c rfl
    simp [hc]

/-- There is no newline in a run of a class that has none. -/
theorem count_newline_of_class {class? : Char → Bool} {cs : List Char}
    (hclass : class? '\n' = false) (hcs : ∀ d ∈ cs, class? d = true) : cs.count '\n' = 0 := by
  refine List.count_eq_zero.2 fun hmem => ?_
  rw [hcs _ hmem] at hclass
  cases hclass

/-- There is no newline in a word. -/
theorem count_newline_word {c : Char} {cs : List Char} (hc : isWordStart c = true)
    (hcs : ∀ d ∈ cs, isWordRest d = true) : (c :: cs).count '\n' = 0 := by
  rw [List.count_cons_of_ne (by rintro rfl; cases hc), count_newline_of_class (by decide) hcs]

/-! ### What a text is made of -/

/-- A part of a text: a lexeme, or something between lexemes. -/
structure Segment where
  lexeme? : Option Lexeme
  chars : List Char
deriving DecidableEq, Inhabited

/-- The characters of a word. -/
def IsWord (word : List Char) : Prop :=
  ∃ c cs, word = c :: cs ∧ isWordStart c = true ∧ ∀ d ∈ cs, isWordRest d = true

namespace Segment

/-- The segment is as long as it can be before `rest`. -/
inductive Munches : Segment → List Char → Prop where
  | blank {c rest} : Text.isBlank c = true → Munches ⟨none, [c]⟩ rest
  /-- A comment ends before the next newline. -/
  | comment {text rest} : '\n' ∉ text → (∀ c ∈ rest.head?, c = '\n') →
      Munches ⟨none, '/' :: '/' :: text⟩ rest
  | keyword {s word rest} : s ∈ Symbol.keywords → s.spelling = String.ofList word → IsWord word →
      EndsRun isWordRest rest → Munches ⟨some (.symbol s), word⟩ rest
  | identifier {word rest} : (∀ s ∈ Symbol.keywords, s.spelling ≠ String.ofList word) →
      IsWord word → EndsRun isWordRest rest →
      Munches ⟨some (.identifier (String.ofList word)), word⟩ rest
  | integer {digits rest} : digits ≠ [] → (∀ c ∈ digits, c.isDigit = true) →
      EndsRun Char.isDigit rest → Munches ⟨some (.integer (String.ofList digits)), digits⟩ rest
  | operator {s run rest} : s ∈ Symbol.operators → s.spelling = String.ofList run →
      EndsRun isOperatorChar rest → Munches ⟨some (.symbol s), run⟩ rest
  | punctuation {s c rest} : s ∈ Symbol.punctuation → s.spelling = String.ofList [c] →
      Munches ⟨some (.symbol s), [c]⟩ rest
  /-- A string ends at its first quote that is not part of an escape. -/
  | string {text rest} : HasNoEnd text → ¬Escapes text →
      Munches ⟨some (.string (String.ofList text)), '\x27' :: text ++ ['\x27']⟩ rest

end Segment

/-- A character that no segment starts with. -/
def StartsNothing (c : Char) : Prop :=
  Text.isBlank c = false ∧ c ≠ '\x27' ∧ isWordStart c = false ∧ c.isDigit = false ∧
    isOperatorChar c = false ∧ ∀ s ∈ Symbol.punctuation, s.spelling ≠ String.ofList [c]

/-- No segment starts the text, which stands at `address`. -/
inductive Offends (address : Nat) : List Char → ScanError → Prop where
  | unexpected {c cs} : StartsNothing c → Offends address (c :: cs) (.unexpected c address)
  | unterminated {cs} : HasNoEnd cs → Offends address ('\x27' :: cs)
      (.unterminated { start := address, length := Text.byteLength ('\x27' :: cs) })
  | unknownOperator {run rest} : run ≠ [] → (∀ c ∈ run, isOperatorChar c = true) →
      EndsRun isOperatorChar rest → ¬['/', '/'] <+: run →
      (∀ s ∈ Symbol.operators, s.spelling ≠ String.ofList run) →
      Offends address (run ++ rest)
        (.unknownOperator (String.ofList run) { start := address, length := Text.byteLength run })

/-- The text consists of the segments and `rest` behind them. -/
inductive Splits : List Char → List Segment → List Char → Prop where
  | nil {rest} : Splits rest [] rest
  | cons {seg follow segs rest} : seg.Munches follow → Splits follow segs rest →
      Splits (seg.chars ++ follow) (seg :: segs) rest

namespace Segment

/-- The lexemes among the segments as tokens, when the first segment starts at `address` on line
    `line`. -/
def tokens : Nat → Nat → List Segment → List Token
  | _, _, [] => []
  | address, line, seg :: segs =>
    (seg.lexeme?.map fun lexeme =>
      { lexeme, span := { start := address, length := Text.byteLength seg.chars }, line }).toList ++
      tokens (address + Text.byteLength seg.chars) (line + seg.chars.count '\n') segs

end Segment

/-! ### Classes of characters -/

/-- Words start with an ASCII letter. -/
theorem bounds_of_isWordStart {c : Char} (h : isWordStart c = true) :
    65 ≤ c.toNat ∧ c.toNat ≤ 90 ∨ 97 ≤ c.toNat ∧ c.toNat ≤ 122 := by
  simp only [isWordStart, Char.isAlpha, Char.isUpper, Char.isLower, Bool.or_eq_true,
    Bool.and_eq_true, decide_eq_true_eq, ge_iff_le, UInt32.le_iff_toNat_le] at h
  exact h

/-- Digits are the ten ASCII ones. -/
theorem bounds_of_isDigit {c : Char} (h : c.isDigit = true) : 48 ≤ c.toNat ∧ c.toNat ≤ 57 := by
  simp only [Char.isDigit, Bool.and_eq_true, decide_eq_true_eq, ge_iff_le,
    UInt32.le_iff_toNat_le] at h
  exact h

/-- Blank characters are no letters and no digits. -/
theorem not_isBlank_of_bounds {c : Char} (h : 48 ≤ c.toNat ∧ c.toNat ≤ 122) :
    Text.isBlank c = false := by
  rw [← Bool.not_eq_true, Text.isBlank, Text.inRanges_eq_true_iff]
  simp only [Text.blankRanges, List.mem_cons, List.not_mem_nil, or_false, exists_eq_or_imp,
    exists_eq_left]
  omega

/-- No word starts with a blank. -/
theorem not_isBlank_of_isWordStart {c : Char} (h : isWordStart c = true) :
    Text.isBlank c = false := by
  have := bounds_of_isWordStart h
  exact not_isBlank_of_bounds (by omega)

/-- A digit starts nothing but a number. -/
theorem classes_of_isDigit {c : Char} (h : c.isDigit = true) :
    Text.isBlank c = false ∧ c ≠ '\x27' ∧ isWordStart c = false := by
  have hbounds := bounds_of_isDigit h
  refine ⟨not_isBlank_of_bounds (by omega), ?_, ?_⟩
  · rintro rfl
    cases h
  · rw [← Bool.not_eq_true]
    intro hword
    have := bounds_of_isWordStart hword
    omega

/-- What a list decides holds for its members. -/
theorem forall_mem_of_all {α : Type} {P : α → Prop} [DecidablePred P] {as : List α}
    (h : (as.all fun a => decide (P a)) = true) : ∀ a ∈ as, P a :=
  fun a ha => of_decide_eq_true (List.all_eq_true.1 h a ha)

/-- A character of an operator starts nothing else. -/
theorem classes_of_isOperatorChar {c : Char} (h : isOperatorChar c = true) :
    Text.isBlank c = false ∧ c ≠ '\x27' ∧ isWordStart c = false ∧ c.isDigit = false := by
  rw [isOperatorChar, List.contains_iff_mem] at h
  revert c
  show ∀ c ∈ _, _
  refine forall_mem_of_all ?_
  decide +kernel

/-- A punctuation character starts nothing else. -/
theorem classes_of_punctuation {s : Symbol} {c : Char} (h : s ∈ Symbol.punctuation)
    (hs : s.spelling = String.ofList [c]) : Text.isBlank c = false ∧ c ≠ '\x27' ∧
      isWordStart c = false ∧ c.isDigit = false ∧ isOperatorChar c = false := by
  have hc : [c] = s.spelling.toList := by rw [hs, String.toList_ofList]
  have hmem : c ∈ Symbol.punctuation.flatMap fun s => s.spelling.toList :=
    List.mem_flatMap.2 ⟨s, h, hc ▸ List.mem_singleton.2 rfl⟩
  clear hc hs
  revert c
  show ∀ c ∈ _, _
  refine forall_mem_of_all ?_
  decide +kernel

/-- An operator is a run of operator characters, and no operator starts as a comment does. -/
theorem chars_of_operator {s : Symbol} {run : List Char} (h : s ∈ Symbol.operators)
    (hs : s.spelling = String.ofList run) :
    run ≠ [] ∧ run.all isOperatorChar = true ∧ ¬['/', '/'] <+: run := by
  have hrun : run = s.spelling.toList := by rw [hs, String.toList_ofList]
  rw [hrun]
  clear hrun hs
  revert s
  show ∀ s ∈ _, _
  refine forall_mem_of_all ?_
  decide +kernel

/-! ### Symbols -/

/-- Symbols with different spellings are found by their spelling. -/
theorem find?_spelling {symbols : List Symbol} (hnodup : (symbols.map Symbol.spelling).Nodup)
    {spelling : String} {s : Symbol} :
    symbols.find? (·.spelling = spelling) = some s ↔ s ∈ symbols ∧ s.spelling = spelling := by
  constructor
  · intro h
    exact ⟨List.mem_of_find?_eq_some h, by simpa using List.find?_some h⟩
  · rintro ⟨hmem, rfl⟩
    cases h : symbols.find? (·.spelling = s.spelling) with
    | none => simpa using List.find?_eq_none.1 h s hmem
    | some s' =>
      have hs' : s'.spelling = s.spelling := by simpa using List.find?_some h
      rw [List.inj_on_of_nodup_map hnodup (List.mem_of_find?_eq_some h) hmem hs']

/-- A symbol is not found if none is spelled like that. -/
theorem find?_spelling_eq_none {symbols : List Symbol} {spelling : String} :
    symbols.find? (·.spelling = spelling) = none ↔ ∀ s ∈ symbols, s.spelling ≠ spelling := by
  simp

/-- Keywords are found by their spelling, and nothing else is. -/
theorem ofWord?_eq_some_iff {word : String} {s : Symbol} :
    Symbol.ofWord? word = some s ↔ s ∈ Symbol.keywords ∧ s.spelling = word :=
  find?_spelling (by decide +kernel)

/-- Operators are found by their spelling, and nothing else is. -/
theorem ofOperator?_eq_some_iff {run : String} {s : Symbol} :
    Symbol.ofOperator? run = some s ↔ s ∈ Symbol.operators ∧ s.spelling = run :=
  find?_spelling (by decide +kernel)

/-- Punctuation is found by its spelling, and nothing else is. -/
theorem punctuation?_eq_some_iff {c : Char} {s : Symbol} :
    punctuation? c = some s ↔ s ∈ Symbol.punctuation ∧ s.spelling = String.ofList [c] :=
  find?_spelling (by decide +kernel)

/-! ### One piece -/

namespace Piece

variable {address line : Nat} {c : Char} {cs rest : List Char} {p : Piece} {e : ScanError}

/-- A letter starts a word. -/
theorem next_of_isWordStart (h : isWordStart c = true) : next address line c cs =
    .ok (run (fun word => some (wordLexeme (String.ofList word))) isWordRest line c cs) := by
  have hquote : c ≠ '\x27' := by
    rintro rfl
    cases h
  unfold next
  simp only [not_isBlank_of_isWordStart h, hquote, h, if_true, if_false, Bool.false_eq_true]

/-- A digit starts a number. -/
theorem next_of_isDigit (h : c.isDigit = true) : next address line c cs =
    .ok (run (fun digits => some (.integer (String.ofList digits))) Char.isDigit line c cs) := by
  obtain ⟨hblank, hquote, hword⟩ := classes_of_isDigit h
  unfold next
  simp only [hblank, hquote, hword, h, if_true, if_false, Bool.false_eq_true]

/-- An operator character starts an operator or a comment. -/
theorem next_of_isOperatorChar (h : isOperatorChar c = true) :
    next address line c cs = ofOperatorChar address line c cs := by
  obtain ⟨hblank, hquote, hword, hdigit⟩ := classes_of_isOperatorChar h
  unfold next
  simp only [hblank, hquote, hword, hdigit, h, if_true, if_false, Bool.false_eq_true]

/-- A quote starts a string. -/
theorem next_quote : next address line '\x27' cs = ofString address line cs := by
  unfold next
  rw [if_neg (by decide), if_pos rfl]

/-- A run is taken as a whole. -/
theorem run_append {class? : Char → Bool} (lexeme? : List Char → Option Lexeme) (c : Char)
    (hcs : ∀ d ∈ cs, class? d = true) (hrest : EndsRun class? rest) :
    run lexeme? class? line c (cs ++ rest) =
      { lexeme? := lexeme? (c :: cs), taken := c :: cs, rest, lineBehind := line } := by
  obtain ⟨htaken, hdropped⟩ := takeWhile_of_endsRun hcs hrest
  rw [run, htaken, hdropped]

/-- A comment starts with two slashes, which are no run followed by something else. -/
theorem startsComment_iff (c : Char) (cs : List Char) (hrest : EndsRun isOperatorChar rest) :
    (c = '/' && (cs ++ rest).head? = some '/') = true ↔ ['/', '/'] <+: c :: cs := by
  rw [Bool.and_eq_true, decide_eq_true_eq, decide_eq_true_eq, List.cons_prefix_cons]
  cases cs with
  | nil =>
    refine iff_of_false (fun h => ?_) (by simp)
    exact absurd (hrest '/' h.2) (by decide)
  | cons d ds =>
    rw [List.cons_append, List.head?_cons, Option.some.injEq, List.cons_prefix_cons]
    constructor
    · rintro ⟨rfl, rfl⟩
      exact ⟨rfl, rfl, List.nil_prefix⟩
    · rintro ⟨rfl, rfl, -⟩
      exact ⟨rfl, rfl⟩

/-- A segment that stands in front of a text is its next piece. Behind it, the scanner has come as
    many lines further as there are newlines in the segment. -/
theorem exists_next_of_munches {seg : Segment} (h : seg.Munches rest) (address line : Nat) :
    ∃ c cs, seg.chars ++ rest = c :: cs ∧ next address line c cs =
      .ok { lexeme? := seg.lexeme?, taken := seg.chars, rest,
            lineBehind := line + seg.chars.count '\n' } := by
  cases h with
  | @blank c _ hblank =>
    refine ⟨c, rest, rfl, ?_⟩
    unfold next
    rw [if_pos hblank, countLine_eq]
  | @comment text _ htext hrest =>
    -- a comment is the run of characters up to the end of the line
    have hall : ∀ d ∈ '/' :: text, decide (d ≠ '\n') = true := by
      intro d hd
      refine decide_eq_true ?_
      rintro rfl
      rcases List.mem_cons.1 hd with hd | hd
      · cases hd
      · exact htext hd
    have hends : EndsRun (fun d => decide (d ≠ '\n')) rest := by
      intro d hd
      simpa using hrest d hd
    refine ⟨'/', '/' :: text ++ rest, rfl, ?_⟩
    rw [next_of_isOperatorChar (by decide), ofOperatorChar, if_pos (by simp),
      count_newline_of_class (by decide) (List.forall_mem_cons.2 ⟨by decide, hall⟩)]
    exact congrArg Except.ok (run_append (fun _ => none) '/' hall hends)
  | keyword hs hspelling hword hrest =>
    obtain ⟨d, ds, rfl, hd, hds⟩ := hword
    refine ⟨d, ds ++ rest, rfl, ?_⟩
    rw [next_of_isWordStart hd, run_append _ d hds hrest, wordLexeme,
      ofWord?_eq_some_iff.2 ⟨hs, hspelling⟩, count_newline_word hd hds]
    rfl
  | identifier hspelling hword hrest =>
    obtain ⟨d, ds, rfl, hd, hds⟩ := hword
    have hnone : Symbol.ofWord? (String.ofList (d :: ds)) = none := find?_spelling_eq_none.2 hspelling
    refine ⟨d, ds ++ rest, rfl, ?_⟩
    rw [next_of_isWordStart hd, run_append _ d hds hrest, wordLexeme, hnone,
      count_newline_word hd hds]
    rfl
  | @integer digits _ hne hdigits hrest =>
    obtain ⟨d, ds, rfl⟩ := List.exists_cons_of_ne_nil hne
    obtain ⟨hd, hds⟩ := List.forall_mem_cons.1 hdigits
    refine ⟨d, ds ++ rest, rfl, ?_⟩
    rw [next_of_isDigit hd, run_append _ d hds hrest, count_newline_of_class (by decide) hdigits]
    rfl
  | @operator s taken _ hs hspelling hrest =>
    obtain ⟨hne, hall, hcomment⟩ := chars_of_operator hs hspelling
    obtain ⟨d, ds, rfl⟩ := List.exists_cons_of_ne_nil hne
    have hchars := List.all_eq_true.1 hall
    obtain ⟨hd, hds⟩ := List.forall_mem_cons.1 hchars
    obtain ⟨htaken, hdropped⟩ := takeWhile_of_endsRun hds hrest
    refine ⟨d, ds ++ rest, rfl, ?_⟩
    rw [next_of_isOperatorChar hd, ofOperatorChar,
      if_neg (mt (startsComment_iff d ds hrest).1 hcomment)]
    simp only [htaken, hdropped, ofOperator?_eq_some_iff.2 ⟨hs, hspelling⟩,
      count_newline_of_class (by decide) hchars, Nat.add_zero]
  | @punctuation s d _ hs hspelling =>
    obtain ⟨hblank, hquote, hword, hdigit, hoperator⟩ := classes_of_punctuation hs hspelling
    -- a newline is a blank character
    have hnewline : d ≠ '\n' := by
      rintro rfl
      exact absurd hblank (by decide)
    have hcount : [d].count '\n' = 0 :=
      List.count_eq_zero.2 (mt List.mem_singleton.1 hnewline.symm)
    refine ⟨d, rest, rfl, ?_⟩
    unfold next
    simp only [hblank, hquote, hword, hdigit, hoperator, if_false, Bool.false_eq_true,
      punctuation?_eq_some_iff.2 ⟨hs, hspelling⟩, hcount, Nat.add_zero]
  | @string text _ hend hescapes =>
    have hclose : closeString line (text ++ '\x27' :: rest) =
        some { text, rest, line := line + text.count '\n' } :=
      closeString_eq_some_iff.2 ⟨rfl, ⟨hend, hescapes⟩, rfl⟩
    -- the quotes around the text are no newlines
    have hcount : ('\x27' :: text ++ ['\x27']).count '\n' = text.count '\n' := by simp
    refine ⟨'\x27', text ++ '\x27' :: rest, by simp, ?_⟩
    rw [next_quote, ofString, hclose, hcount]

/-- A run of letters, digits and `_` is a keyword or an identifier. -/
theorem munches_word (hstart : isWordStart c = true) (cs : List Char) :
    Segment.Munches ⟨some (wordLexeme (String.ofList (c :: cs.takeWhile isWordRest))),
      c :: cs.takeWhile isWordRest⟩ (cs.dropWhile isWordRest) := by
  have hword : IsWord (c :: cs.takeWhile isWordRest) :=
    ⟨c, _, rfl, hstart, forall_mem_takeWhile isWordRest cs⟩
  have hrest := endsRun_dropWhile isWordRest cs
  rw [wordLexeme]
  cases hspelling : Symbol.ofWord? (String.ofList (c :: cs.takeWhile isWordRest)) with
  | none => exact .identifier (find?_spelling_eq_none.1 hspelling) hword hrest
  | some s =>
    obtain ⟨hs, hspelling⟩ := ofWord?_eq_some_iff.1 hspelling
    exact .keyword hs hspelling hword hrest

/-- A string that closes is munched up to its closing quote. -/
theorem munches_of_ofString (h : ofString address line cs = .ok p) :
    Segment.Munches ⟨p.lexeme?, p.taken⟩ p.rest := by
  rw [ofString] at h
  cases hclose : closeString line cs with
  | none =>
    rw [hclose] at h
    cases h
  | some closed =>
    obtain ⟨hend, hescapes⟩ := hasNoEnd_of_closeString hclose
    rw [hclose] at h
    cases h
    exact .string hend hescapes

/-- Operators and comments are munched as far as they go. -/
theorem munches_of_ofOperatorChar (hoperator : isOperatorChar c = true)
    (h : ofOperatorChar address line c cs = .ok p) : Segment.Munches ⟨p.lexeme?, p.taken⟩ p.rest := by
  simp only [ofOperatorChar] at h
  split at h
  · next hcomment =>
    cases h
    rw [Bool.and_eq_true, decide_eq_true_eq, decide_eq_true_eq, List.head?_eq_some_iff] at hcomment
    obtain ⟨rfl, cs, rfl⟩ := hcomment
    -- a comment goes on up to the end of the line
    have htaken : ('/' :: cs).takeWhile (fun d => decide (d ≠ '\n')) =
        '/' :: cs.takeWhile (fun d => decide (d ≠ '\n')) := rfl
    simp only [run, htaken]
    refine .comment (fun hmem => ?_) fun d hd => ?_
    · simpa using forall_mem_takeWhile _ _ _ hmem
    · simpa using endsRun_dropWhile (fun d => decide (d ≠ '\n')) _ d hd
  · split at h
    · cases h
    · next s hspelling =>
      cases h
      obtain ⟨hs, hspelling⟩ := ofOperator?_eq_some_iff.1 hspelling
      exact .operator hs hspelling (endsRun_dropWhile isOperatorChar cs)

/-- The next piece is a segment that stands in front of the text. -/
theorem munches_of_next (h : next address line c cs = .ok p) :
    Segment.Munches ⟨p.lexeme?, p.taken⟩ p.rest := by
  -- the cases are told apart by the first character, in the order in which the scanner looks at it
  unfold next at h
  split at h
  · next hblank =>
    cases h
    exact .blank hblank
  split at h
  · next hquote =>
    subst hquote
    exact munches_of_ofString h
  split at h
  · next hstart =>
    cases h
    exact munches_word hstart cs
  split at h
  · next hdigit =>
    cases h
    exact .integer (List.cons_ne_nil _ _)
      (List.forall_mem_cons.2 ⟨hdigit, forall_mem_takeWhile Char.isDigit cs⟩)
      (endsRun_dropWhile Char.isDigit cs)
  split at h
  · next hoperator => exact munches_of_ofOperatorChar hoperator h
  · split at h
    · next s hspelling =>
      cases h
      obtain ⟨hs, hspelling⟩ := punctuation?_eq_some_iff.1 hspelling
      exact .punctuation hs hspelling
    · cases h

/-- One piece is read exactly if it stands in front of the text, and the newlines in it are counted. -/
theorem next_eq_ok_iff : next address line c cs = .ok p ↔
    c :: cs = p.taken ++ p.rest ∧ Segment.Munches ⟨p.lexeme?, p.taken⟩ p.rest ∧
      p.lineBehind = line + p.taken.count '\n' := by
  constructor
  · intro h
    have hmunches := munches_of_next h
    -- the same piece is found from the segment, behind which the line is known
    obtain ⟨d, ds, hchars, hnext⟩ := exists_next_of_munches hmunches address line
    obtain ⟨rfl, rfl⟩ := List.cons.inj ((taken_append_rest h).symm.trans hchars)
    exact ⟨hchars.symm, hmunches, congrArg lineBehind (Except.ok.inj (h.symm.trans hnext))⟩
  · rintro ⟨htext, h, hline⟩
    obtain ⟨d, ds, hchars, hnext⟩ := exists_next_of_munches h address line
    obtain ⟨rfl, rfl⟩ := List.cons.inj (htext.trans hchars)
    rw [hnext, ← hline]

/-- A string fails only for want of a closing quote. -/
theorem offends_of_ofString (h : ofString address line cs = .error e) :
    Offends address ('\x27' :: cs) e := by
  rw [ofString] at h
  cases hclose : closeString line cs with
  | none =>
    rw [hclose] at h
    cases h
    exact .unterminated ((closeString_eq_none_iff line cs).1 hclose)
  | some closed =>
    rw [hclose] at h
    cases h

/-- A run of operator characters fails if it is no comment and spells no operator. -/
theorem offends_of_ofOperatorChar (hoperator : isOperatorChar c = true)
    (h : ofOperatorChar address line c cs = .error e) : Offends address (c :: cs) e := by
  simp only [ofOperatorChar] at h
  split at h
  · cases h
  next hcomment =>
  split at h
  · next hspelling =>
    cases h
    have hrest := endsRun_dropWhile isOperatorChar cs
    have hsplit : cs.takeWhile isOperatorChar ++ cs.dropWhile isOperatorChar = cs :=
      List.takeWhile_append_dropWhile
    -- the whole run is no comment if its first two characters are none
    rw [← hsplit, startsComment_iff _ _ hrest] at hcomment
    have hoffends : Offends address _ _ := .unknownOperator (List.cons_ne_nil _ _)
      (List.forall_mem_cons.2 ⟨hoperator, forall_mem_takeWhile isOperatorChar cs⟩) hrest hcomment
      (find?_spelling_eq_none.1 hspelling)
    rwa [List.cons_append, hsplit] at hoffends
  · cases h

/-- What stops a text from having a next piece. -/
theorem offends_of_next (h : next address line c cs = .error e) : Offends address (c :: cs) e := by
  -- the first character is of none of the classes, or of one that has errors of its own
  unfold next at h
  split at h
  · cases h
  next hblank =>
  split at h
  · next hquote =>
    subst hquote
    exact offends_of_ofString h
  next hquote =>
  split at h
  · cases h
  next hword =>
  split at h
  · cases h
  next hdigit =>
  split at h
  · next hoperator => exact offends_of_ofOperatorChar hoperator h
  next hoperator =>
  split at h
  · cases h
  · next hpunctuation =>
    cases h
    simp only [Bool.not_eq_true] at hblank hword hdigit hoperator
    exact .unexpected ⟨hblank, hquote, hword, hdigit, hoperator,
      find?_spelling_eq_none.1 hpunctuation⟩

/-- Where no segment stands, there is no next piece. -/
theorem exists_next_of_offends {text : List Char} (h : Offends address text e) (line : Nat) :
    ∃ c cs, text = c :: cs ∧ next address line c cs = .error e := by
  cases h with
  | @unexpected c cs h =>
    obtain ⟨hblank, hquote, hword, hdigit, hoperator, hpunctuation⟩ := h
    refine ⟨c, cs, rfl, ?_⟩
    have hnone : punctuation? c = none := find?_spelling_eq_none.2 hpunctuation
    unfold next
    simp only [hblank, hquote, hword, hdigit, hoperator, if_false, Bool.false_eq_true, hnone]
  | @unterminated cs h =>
    refine ⟨'\x27', cs, rfl, ?_⟩
    rw [next_quote, ofString, (closeString_eq_none_iff line cs).2 h]
    rfl
  | @unknownOperator taken rest hne hall hrest hcomment hspelling =>
    obtain ⟨d, ds, rfl⟩ := List.exists_cons_of_ne_nil hne
    obtain ⟨hd, hds⟩ := List.forall_mem_cons.1 hall
    obtain ⟨htaken, -⟩ := takeWhile_of_endsRun hds hrest
    -- the run of operator characters starts no comment and is no operator
    have hnone : Symbol.ofOperator? (String.ofList (d :: ds)) = none :=
      find?_spelling_eq_none.2 hspelling
    refine ⟨d, ds ++ rest, rfl, ?_⟩
    rw [next_of_isOperatorChar hd, ofOperatorChar,
      if_neg (mt (startsComment_iff d ds hrest).1 hcomment)]
    simp only [htaken, hnone]

/-- Reading stops exactly where no segment stands. -/
theorem next_eq_error_iff : next address line c cs = .error e ↔ Offends address (c :: cs) e := by
  refine ⟨offends_of_next, fun h => ?_⟩
  obtain ⟨d, ds, htext, hnext⟩ := exists_next_of_offends h line
  obtain ⟨rfl, rfl⟩ := List.cons.inj htext
  exact hnext

end Piece

/-! ### The whole text -/

section

variable {text rest : List Char} {segs segs' : List Segment} {e : ScanError}

/-- The segments and what is behind them are the text. -/
theorem Splits.text_eq (h : Splits text segs rest) : text = segs.flatMap Segment.chars ++ rest := by
  induction h with
  | nil => rfl
  | @cons seg follow segs rest _ _ ih => rw [List.flatMap_cons, List.append_assoc, ← ih]

/-- A text is divided in one way only. -/
theorem Splits.unique (h : Splits text segs []) (h' : Splits text segs' []) : segs = segs' := by
  generalize hrest : ([] : List Char) = rest at h
  induction h generalizing segs' with
  | nil =>
    subst hrest
    cases segs' with
    | nil => rfl
    | cons seg segs' =>
      generalize htext : ([] : List Char) = text at h'
      cases h' with
      | cons hseg _ =>
        obtain ⟨c, cs, hchars, -⟩ := Piece.exists_next_of_munches hseg 0 0
        rw [← htext] at hchars
        cases hchars
  | @cons seg follow segs rest hseg _ ih =>
    obtain ⟨c, cs, hchars, hnext⟩ := Piece.exists_next_of_munches hseg 0 0
    generalize htext : seg.chars ++ follow = text at h'
    cases h' with
    | nil =>
      rw [htext] at hchars
      cases hchars
    | @cons seg' follow' segs' _ hseg' hfollow' =>
      obtain ⟨c', cs', hchars', hnext'⟩ := Piece.exists_next_of_munches hseg' 0 0
      -- both segments are the next piece of the text
      obtain ⟨rfl, rfl⟩ := List.cons.inj (hchars.symm.trans (htext.trans hchars'))
      have hpiece := Except.ok.inj (hnext.symm.trans hnext')
      simp only [Piece.mk.injEq] at hpiece
      obtain ⟨hlexeme, hsame, rfl, -⟩ := hpiece
      have hseg_eq : seg = seg' := by
        cases seg
        cases seg'
        simp_all
      rw [hseg_eq, ih hfollow' hrest]

/-- A text is divided as a whole, or up to a place where no segment stands. -/
theorem exists_splits (address : Nat) (text : List Char) : (∃ segs, Splits text segs []) ∨
    ∃ segs rest e, Splits text segs rest ∧
      Offends (address + Text.byteLength (segs.flatMap Segment.chars)) rest e := by
  induction hlen : text.length using Nat.strongRecOn generalizing address text with
  | ind n ih =>
    cases text with
    | nil => exact .inl ⟨[], .nil⟩
    | cons c cs =>
      cases hnext : Piece.next address 1 c cs with
      | error e => exact .inr ⟨[], c :: cs, e, .nil, Piece.next_eq_error_iff.1 hnext⟩
      | ok p =>
        obtain ⟨htext, hseg, -⟩ := Piece.next_eq_ok_iff.1 hnext
        have hlt : p.rest.length < n := hlen ▸ Piece.rest_lt hnext
        rw [htext]
        rcases ih _ hlt (address + Text.byteLength p.taken) p.rest rfl with
          ⟨segs, hsplits⟩ | ⟨segs, rest, e, hsplits, hoffends⟩
        · exact .inl ⟨_, .cons hseg hsplits⟩
        · refine .inr ⟨_, rest, e, .cons hseg hsplits, ?_⟩
          rwa [List.flatMap_cons, Text.byteLength_append, ← Nat.add_assoc]

end

namespace Token

variable {address line : Nat} {done : List Token} {text rest : List Char} {segs : List Segment}

/-- The scanner goes on behind the next piece, on the line that it has come to. -/
theorem scanFrom_of_next {c : Char} {cs : List Char} {p : Piece}
    (h : Piece.next address line c cs = .ok p) : scanFrom address line done (c :: cs) =
      scanFrom (address + Text.byteLength p.taken) p.lineBehind
        ((p.token? address line).toList ++ done) p.rest := by
  rw [scanFrom]
  split <;> simp_all

/-- The scanner stops where there is no next piece. -/
theorem scanFrom_of_next_error {c : Char} {cs : List Char} {e : ScanError}
    (h : Piece.next address line c cs = .error e) :
    scanFrom address line done (c :: cs) = .error e := by
  rw [scanFrom]
  split <;> simp_all

/-- The segments in front of a text are read one after the other. The scanner then has counted all
    the newlines in them. -/
theorem scanFrom_of_splits (h : Splits text segs rest) (address line : Nat) (done : List Token) :
    scanFrom address line done text =
      scanFrom (address + Text.byteLength (segs.flatMap Segment.chars))
        (line + (segs.flatMap Segment.chars).count '\n')
        ((Segment.tokens address line segs).reverse ++ done) rest := by
  induction h generalizing address line done with
  | nil => rfl
  | @cons seg follow segs rest hseg _ ih =>
    obtain ⟨c, cs, hchars, hnext⟩ := Piece.exists_next_of_munches hseg address line
    rw [hchars, scanFrom_of_next hnext, ih, List.flatMap_cons, Text.byteLength_append,
      List.count_append, Segment.tokens, List.reverse_append, List.append_assoc, Nat.add_assoc,
      Nat.add_assoc]
    cases seg.lexeme? with
    | none => simp only [Piece.token?, Option.map_none, Option.toList_none, List.reverse_nil]
    | some lexeme =>
      simp only [Piece.token?, Option.map_some, Option.toList_some, List.reverse_singleton]

/-- The tokens of a text that consists of segments are the lexemes among them and the end of the
    input. -/
theorem scan_of_splits (h : Splits text segs []) (base : Nat) :
    scan base text = .ok (Segment.tokens base 1 segs ++
      [{ lexeme := .symbol .endOfInput
         span := { start := base + Text.byteLength text, length := 0 }
         line := 1 + text.count '\n' }]) := by
  have htext := h.text_eq
  rw [List.append_nil] at htext
  rw [scan, scanFrom_of_splits h, ← htext, scanFrom, List.append_nil, List.reverse_cons,
    List.reverse_reverse]

/-- Behind segments, reading stops where no segment stands. -/
theorem scan_of_offends {base : Nat} {e : ScanError} (h : Splits text segs rest)
    (he : Offends (base + Text.byteLength (segs.flatMap Segment.chars)) rest e) :
    scan base text = .error e := by
  obtain ⟨c, cs, rfl, hnext⟩ := Piece.exists_next_of_offends he
    (1 + (segs.flatMap Segment.chars).count '\n')
  rw [scan, scanFrom_of_splits h, scanFrom_of_next_error hnext]

/-- The tokens that are found are the lexemes among the segments of the text, and the end of the
    input. -/
theorem exists_splits_of_scan {base : Nat} {tokens : List Token} (h : scan base text = .ok tokens) :
    ∃ segs, Splits text segs [] ∧ tokens = Segment.tokens base 1 segs ++
      [{ lexeme := .symbol .endOfInput
         span := { start := base + Text.byteLength text, length := 0 }
         line := 1 + text.count '\n' }] := by
  obtain ⟨segs, hsplits⟩ | ⟨segs, rest, e, hsplits, hoffends⟩ := exists_splits base text
  · exact ⟨segs, hsplits, Except.ok.inj (h.symm.trans (scan_of_splits hsplits base))⟩
  · cases h.symm.trans (scan_of_offends hsplits hoffends)

/-- An error is at the first place where no segment stands. -/
theorem exists_offends_of_scan {base : Nat} {e : ScanError} (h : scan base text = .error e) :
    ∃ segs rest, Splits text segs rest ∧
      Offends (base + Text.byteLength (segs.flatMap Segment.chars)) rest e := by
  obtain ⟨segs, hsplits⟩ | ⟨segs, rest, e', hsplits, hoffends⟩ := exists_splits base text
  · cases h.symm.trans (scan_of_splits hsplits base)
  · obtain rfl := Except.error.inj (h.symm.trans (scan_of_offends hsplits hoffends))
    exact ⟨segs, rest, hsplits, hoffends⟩

/-- The tokens of a text are found exactly if the text consists of segments, and they are then the
    lexemes among them and the end of the input. Otherwise, the error is at the first place where no
    segment stands, behind segments. -/
theorem scan_iff_splits (base : Nat) (text : List Char) :
    (∀ tokens, scan base text = .ok tokens ↔ ∃ segs, Splits text segs [] ∧
      tokens = Segment.tokens base 1 segs ++
        [{ lexeme := .symbol .endOfInput
           span := { start := base + Text.byteLength text, length := 0 }
           line := 1 + text.count '\n' }]) ∧
    ∀ e, scan base text = .error e ↔ ∃ segs rest, Splits text segs rest ∧
      Offends (base + Text.byteLength (segs.flatMap Segment.chars)) rest e := by
  constructor
  · refine fun tokens => ⟨exists_splits_of_scan, fun ⟨segs, hsplits, htokens⟩ => ?_⟩
    rw [htokens, scan_of_splits hsplits base]
  · intro e
    exact ⟨exists_offends_of_scan, fun ⟨segs, rest, hsplits, he⟩ => scan_of_offends hsplits he⟩

end Token

end Rpal
