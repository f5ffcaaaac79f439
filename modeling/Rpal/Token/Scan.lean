import Rpal.Diagnostic
import Rpal.Text.Blank
import Rpal.Text.Quoted
import Rpal.Token.Basic

/-!
# From text to tokens

The text of a program is cut, from left to right, into pieces: blank characters, comments and
lexemes. A word, a number and a run of operator characters extend as far as their characters do; a
string ends at its first quote that no backslash precedes, where a backslash takes the character
after it along. A comment starts with two slashes in place of an operator and ends before the next
newline.

Lines are counted on the way. The scanner goes on to the next line at a newline among the blank
characters, and in a string, where it also looks behind a backslash. A comment leaves its newline to
be read as a blank character, and no other piece has newlines. A token is on the line on which the
scanner was when the token began.

- `closeString_line`: behind a string, the scanner is as many lines further as the string has newlines
- `Piece.taken_append_rest`: a piece and what is left after it are the text
- `Piece.rest_lt`: every piece takes at least one character
- `Token.scanFrom_eq`: the tokens already found do not influence those still to come
-/

namespace Rpal

/-- What stops the division of a text into tokens. -/
inductive ScanError where
  /-- A character that starts no piece. -/
  | unexpected (c : Char) (address : Nat)
  /-- A string without a closing quote; the span goes from its opening quote to the end. -/
  | unterminated (span : Span)
  /-- A run of operator characters that is no operator. -/
  | unknownOperator (run : String) (span : Span)
deriving DecidableEq, Inhabited

namespace ScanError

/-- The error as a diagnostic. -/
def diagnostic : ScanError → Diagnostic
  | unexpected c address =>
    { highlight := .point address, message := "Unexpected character " ++ Text.quotedChar c }
  | unterminated span =>
    { highlight := .span span, message := "Unterminated string" }
  | unknownOperator run span =>
    { highlight := .span span, message := "Unknown operator \"" ++ run ++ "\"" }

end ScanError

/-! ### Character classes -/

/-- `c` can start a word. -/
def isWordStart (c : Char) : Bool :=
  c.isAlpha

/-- `c` can continue a word. -/
def isWordRest (c : Char) : Bool :=
  c.isAlphanum || c = '_'

/-- `c` can be part of a run of operator characters. -/
def isOperatorChar (c : Char) : Bool :=
  ['+', '-', '*', '<', '>', '&', '.', '@', '/', ':', '=', '~', '|', '$', '!', '#', '%', '^', '_',
   '[', ']', '\x7b', '\x7d', '"', '?'].contains c

/-- The symbol that `c` is on its own. -/
def punctuation? (c : Char) : Option Symbol :=
  Symbol.punctuation.find? (·.spelling = String.ofList [c])

/-! ### Pieces -/

/-- A piece at the head of a text: its lexeme, unless it is blank or a comment, its characters, what
    is left of the text, and the line that the scanner has come to behind it. -/
structure Piece where
  lexeme? : Option Lexeme
  taken : List Char
  rest : List Char
  lineBehind : Nat
deriving DecidableEq, Inhabited

/-- The line that the scanner has come to behind `c`, when it was on line `line`. -/
def countLine (line : Nat) (c : Char) : Nat :=
  if c = '\n' then line + 1 else line

/-- A character adds a line if it is a newline. -/
theorem countLine_eq (line : Nat) (c : Char) : countLine line c = line + [c].count '\n' := by
  unfold countLine
  split <;> simp_all

/-- What is read of a string behind its opening quote: its text, what follows its closing quote, and
    the line that the scanner has come to. -/
structure ClosedString where
  text : List Char
  rest : List Char
  line : Nat
deriving DecidableEq, Inhabited

/-- Reads a string from behind its opening quote, with the scanner on line `line`. -/
def closeString (line : Nat) : List Char → Option ClosedString
  | [] => none
  | '\x27' :: cs => some { text := [], rest := cs, line }
  -- what follows a backslash does not close the string, even if it is a quote
  | '\\' :: c :: cs =>
    (closeString (countLine line c) cs).map fun s => { s with text := '\\' :: c :: s.text }
  | c :: cs => (closeString (countLine line c) cs).map fun s => { s with text := c :: s.text }

/-- The text of a string, its closing quote and what follows are what `closeString` read. -/
theorem closeString_eq_some {line : Nat} {cs : List Char} {s : ClosedString}
    (h : closeString line cs = some s) : cs = s.text ++ '\x27' :: s.rest := by
  fun_induction closeString line cs generalizing s with
  | case1 => cases h
  | case2 => cases h; rfl
  | case3 line c cs ih =>
    obtain ⟨inner, hinner, rfl⟩ := Option.map_eq_some_iff.1 h
    rw [ih hinner]
    rfl
  | case4 line c cs _ _ ih =>
    obtain ⟨inner, hinner, rfl⟩ := Option.map_eq_some_iff.1 h
    rw [ih hinner]
    rfl

/-- Behind a string, the scanner is as many lines further as the string has newlines, those behind a
    backslash among them. -/
theorem closeString_line {line : Nat} {cs : List Char} {s : ClosedString}
    (h : closeString line cs = some s) : s.line = line + s.text.count '\n' := by
  fun_induction closeString line cs generalizing s with
  | case1 => cases h
  | case2 => cases h; rfl
  | case3 line c cs ih =>
    obtain ⟨inner, hinner, rfl⟩ := Option.map_eq_some_iff.1 h
    have hline := ih hinner
    rw [countLine_eq] at hline
    -- the backslash itself is no newline
    show inner.line = line + ('\\' :: ([c] ++ inner.text)).count '\n'
    rw [List.count_cons_of_ne (by decide), List.count_append]
    omega
  | case4 line c cs _ _ ih =>
    obtain ⟨inner, hinner, rfl⟩ := Option.map_eq_some_iff.1 h
    have hline := ih hinner
    rw [countLine_eq] at hline
    show inner.line = line + ([c] ++ inner.text).count '\n'
    rw [List.count_append]
    omega

namespace Piece

/-- The lexeme that a word is: a reserved word or an identifier. -/
def wordLexeme (word : String) : Lexeme :=
  match Symbol.ofWord? word with
  | some s => .symbol s
  | none => .identifier word

/-- The longest run of `class` at the head of `c :: cs`, where `c` is known to belong to it. The
    scanner stays on its line. -/
def run (lexeme? : List Char → Option Lexeme) (class? : Char → Bool) (line : Nat) (c : Char)
    (cs : List Char) : Piece :=
  let taken := c :: cs.takeWhile class?
  { lexeme? := lexeme? taken, taken, rest := cs.dropWhile class?, lineBehind := line }

/-- The string whose opening quote stands at `address` on line `line`, before `cs`. -/
def ofString (address line : Nat) (cs : List Char) : Except ScanError Piece :=
  match closeString line cs with
  | none => .error (.unterminated { start := address, length := 1 + Text.byteLength cs })
  | some s =>
    .ok { lexeme? := some (.string (String.ofList s.text))
          taken := '\x27' :: s.text ++ ['\x27']
          rest := s.rest
          lineBehind := s.line }

/-- The comment or operator that starts with `c` at `address` on line `line`. -/
def ofOperatorChar (address line : Nat) (c : Char) (cs : List Char) : Except ScanError Piece :=
  if c = '/' && cs.head? = some '/' then
    -- the newline is left unread, and counts when it is read as a blank character
    .ok (run (fun _ => none) (· ≠ '\n') line c cs)
  else
    -- the longest run counts, even if an operator is a part of it
    let taken := c :: cs.takeWhile isOperatorChar
    let spelling := String.ofList taken
    match Symbol.ofOperator? spelling with
    | none =>
      .error (.unknownOperator spelling { start := address, length := Text.byteLength taken })
    | some s =>
      .ok { lexeme? := some (.symbol s), taken, rest := cs.dropWhile isOperatorChar
            lineBehind := line }

/-- The piece at the head of `c :: cs`, which stands at `address` on line `line`. -/
def next (address line : Nat) (c : Char) (cs : List Char) : Except ScanError Piece :=
  if Text.isBlank c then
    .ok { lexeme? := none, taken := [c], rest := cs, lineBehind := countLine line c }
  else if c = '\x27' then
    ofString address line cs
  else if isWordStart c then
    .ok (run (fun word => some (wordLexeme (String.ofList word))) isWordRest line c cs)
  else if c.isDigit then
    .ok (run (fun digits => some (.integer (String.ofList digits))) Char.isDigit line c cs)
  else if isOperatorChar c then
    ofOperatorChar address line c cs
  else
    match punctuation? c with
    | some s => .ok { lexeme? := some (.symbol s), taken := [c], rest := cs, lineBehind := line }
    | none => .error (.unexpected c address)

/-- The longest run and what is left after it are the text. -/
theorem run_taken_append_rest (lexeme? : List Char → Option Lexeme) (class? : Char → Bool)
    (line : Nat) (c : Char) (cs : List Char) :
    (run lexeme? class? line c cs).taken ++ (run lexeme? class? line c cs).rest = c :: cs := by
  simp [run]

/-- A piece and what is left after it are the text. -/
theorem taken_append_rest {address line : Nat} {c : Char} {cs : List Char} {p : Piece}
    (h : next address line c cs = .ok p) : p.taken ++ p.rest = c :: cs := by
  simp only [next] at h
  -- the splits are the branches of `next`: blanks, strings, words, digits, operators, punctuation
  split at h
  · cases h; rfl
  split at h
  · next hquote =>
    subst hquote
    simp only [ofString] at h
    split at h
    · cases h
    · next hclose =>
      cases h
      simp [closeString_eq_some hclose]
  split at h
  · cases h; exact run_taken_append_rest ..
  split at h
  · cases h; exact run_taken_append_rest ..
  split at h
  · simp only [ofOperatorChar] at h
    split at h
    · cases h; exact run_taken_append_rest ..
    · split at h
      · cases h
      · cases h; simp
  · split at h
    · cases h; rfl
    · cases h

/-- Every piece takes at least one character. -/
theorem taken_ne_nil {address line : Nat} {c : Char} {cs : List Char} {p : Piece}
    (h : next address line c cs = .ok p) : p.taken ≠ [] := by
  simp only [next, ofString, ofOperatorChar, run] at h
  intro hnil
  repeat' split at h
  all_goals first
    | cases h; simp at hnil
    | cases h

/-- What is left after a piece is shorter than the text. -/
theorem rest_lt {address line : Nat} {c : Char} {cs : List Char} {p : Piece}
    (h : next address line c cs = .ok p) : p.rest.length < (c :: cs).length := by
  have htaken := List.length_pos_iff.2 (taken_ne_nil h)
  rw [← taken_append_rest h, List.length_append]
  omega

/-- The token of a piece that starts at `address` on line `line`, whatever line it ends on. -/
def token? (p : Piece) (address line : Nat) : Option Token :=
  p.lexeme?.map fun lexeme =>
    { lexeme, span := { start := address, length := Text.byteLength p.taken }, line }

end Piece

/-! ### Tokens -/

namespace Token

/-- The tokens of the text from `address` on, which is on line `line`, behind the tokens `done`,
    whose last comes first. The end of the input is a token. -/
def scanFrom (address line : Nat) (done : List Token) :
    List Char → Except ScanError (List Token)
  | [] =>
    let last : Token :=
      { lexeme := .symbol .endOfInput, span := { start := address, length := 0 }, line }
    .ok (last :: done).reverse
  | c :: cs =>
    match h : Piece.next address line c cs with
    | .error e => .error e
    | .ok p =>
      have := Piece.rest_lt h
      scanFrom (address + Text.byteLength p.taken) p.lineBehind
        ((p.token? address line).toList ++ done) p.rest
termination_by text => text.length
decreasing_by exact this

/-- The tokens of a text that starts at `address`. -/
def scan (address : Nat) (text : List Char) : Except ScanError (List Token) :=
  scanFrom address 1 [] text

/-- The tokens already found do not influence those still to come. -/
theorem scanFrom_eq (address line : Nat) (done : List Token) (text : List Char) :
    scanFrom address line done text =
      (scanFrom address line [] text).map (done.reverse ++ ·) := by
  induction hlen : text.length using Nat.strongRecOn generalizing address line done text with
  | ind n ih =>
    cases text with
    | nil => simp [scanFrom, Except.map]
    | cons c cs =>
      simp only [scanFrom]
      split
      · rfl
      · next p h =>
        have hlt : p.rest.length < n := hlen ▸ Piece.rest_lt h
        rw [ih _ hlt _ _ _ _ rfl, ih _ hlt _ _ ((p.token? address line).toList ++ []) _ rfl]
        cases scanFrom _ _ [] p.rest <;> simp [Except.map]

end Token

namespace SourceFile

/-- The tokens of a file. -/
def tokens (f : SourceFile) : Except ScanError (List Token) :=
  Token.scan f.start f.chars

end SourceFile

end Rpal
