import Rpal.Source

/-!
# Tokens

The vocabulary of the language. A token is a lexeme together with its place and line; the grammar
looks only at the token's type, which forgets the text of identifiers, integers and strings.
-/

namespace Rpal

/-- The tokens of a fixed spelling: reserved words, operators, punctuation, and the end of the
    input. -/
inductive Symbol where
  | letKw | inKw | fnKw | whereKw | augKw | orKw | notKw
  | grKw | geKw | lsKw | leKw | eqKw | neKw
  | trueKw | falseKw | nilKw | dummyKw | withinKw | andKw | recKw
  | plus | minus | star | slash | power | arrow | bar | ampersand | atSign | dot | equals
  | greater | greaterEq | less | lessEq
  | lparen | rparen | semicolon | comma
  | endOfInput
deriving DecidableEq, Inhabited

namespace Symbol

/-- The reserved words. -/
def keywords : List Symbol :=
  [letKw, inKw, fnKw, whereKw, augKw, orKw, notKw, grKw, geKw, lsKw, leKw, eqKw, neKw,
   trueKw, falseKw, nilKw, dummyKw, withinKw, andKw, recKw]

/-- The symbols that are runs of operator characters. -/
def operators : List Symbol :=
  [plus, minus, star, slash, power, arrow, bar, ampersand, atSign, dot, equals,
   greater, greaterEq, less, lessEq]

/-- The symbols that are one character and never part of a run. -/
def punctuation : List Symbol :=
  [lparen, rparen, semicolon, comma]

/-- Every symbol, in the order in which sets of tokens are listed. -/
def all : List Symbol :=
  keywords ++ operators ++ punctuation ++ [endOfInput]

/-- The characters of the symbol in a program; the end of the input has none. -/
def spelling : Symbol → String
  | letKw => "let" | inKw => "in" | fnKw => "fn" | whereKw => "where" | augKw => "aug"
  | orKw => "or" | notKw => "not" | grKw => "gr" | geKw => "ge" | lsKw => "ls" | leKw => "le"
  | eqKw => "eq" | neKw => "ne" | trueKw => "true" | falseKw => "false" | nilKw => "nil"
  | dummyKw => "dummy" | withinKw => "within" | andKw => "and" | recKw => "rec"
  | plus => "+" | minus => "-" | star => "*" | slash => "/" | power => "**" | arrow => "->"
  | bar => "|" | ampersand => "&" | atSign => "@" | dot => "." | equals => "="
  | greater => ">" | greaterEq => ">=" | less => "<" | lessEq => "<="
  | lparen => "(" | rparen => ")" | semicolon => ";" | comma => ","
  | endOfInput => ""

/-- The name of the symbol in the listing of a token set. -/
def label : Symbol → String
  | letKw => "Let" | inKw => "In" | fnKw => "Fn" | whereKw => "Where" | augKw => "Aug"
  | orKw => "Or" | notKw => "Not" | grKw => "Gr" | geKw => "Ge" | lsKw => "Ls" | leKw => "Le"
  | eqKw => "Eq" | neKw => "Ne" | trueKw => "True" | falseKw => "False" | nilKw => "Nil"
  | dummyKw => "Dummy" | withinKw => "Within" | andKw => "And" | recKw => "Rec"
  | plus => "Plus" | minus => "Minus" | star => "Star" | slash => "Slash" | power => "Power"
  | arrow => "Arrow" | bar => "Bar" | ampersand => "Amp" | atSign => "At" | dot => "Dot"
  | equals => "Equals" | greater => "Greater" | greaterEq => "GreaterEq" | less => "Less"
  | lessEq => "LessEq" | lparen => "LParen" | rparen => "RParen" | semicolon => "Semicolon"
  | comma => "Comma" | endOfInput => "Eof"

/-- Every symbol is in the list. -/
theorem mem_all (s : Symbol) : s ∈ all := by
  cases s <;> decide

/-- The reserved word spelled `word`. -/
def ofWord? (word : String) : Option Symbol :=
  keywords.find? (·.spelling = word)

/-- The operator spelled `run`. -/
def ofOperator? (run : String) : Option Symbol :=
  operators.find? (·.spelling = run)

end Symbol

/-- What the grammar sees of a token. -/
inductive TokenType where
  | identifier
  | integer
  | string
  | symbol (s : Symbol)
deriving DecidableEq, Inhabited

namespace TokenType

/-- Every token type, in the order in which sets of tokens are listed. -/
def all : List TokenType :=
  [identifier, integer, string] ++ Symbol.all.map symbol

/-- Every type of token is in the list. -/
theorem mem_all (t : TokenType) : t ∈ all := by
  cases t with
  | symbol s => simp [all, Symbol.mem_all]
  | _ => simp [all]

/-- The place of `t` among all token types. -/
def index (t : TokenType) : Nat :=
  all.idxOf t

/-- The place of a type is one in the list. -/
theorem index_lt (t : TokenType) : t.index < all.length :=
  List.idxOf_lt_length_of_mem (mem_all t)

/-- Every place is the place of the token type that stands there. -/
theorem index_getElem_all {i : Nat} (h : i < all.length) : all[i].index = i :=
  List.Nodup.idxOf_getElem (by decide) i h

/-- The token type at place `i`. -/
def ofIndex? (i : Nat) : Option TokenType :=
  all[i]?

/-- A token type is found again at its place. -/
theorem ofIndex?_index (t : TokenType) : ofIndex? t.index = some t := by
  cases t with
  | symbol s => cases s <;> decide
  | _ => decide

/-- Two token types at one place are one. -/
theorem index_inj {t u : TokenType} : t.index = u.index ↔ t = u := by
  refine ⟨fun h => Option.some.inj ?_, congrArg index⟩
  rw [← ofIndex?_index t, ← ofIndex?_index u, h]

/-- The token type as a diagnostic names it. -/
def describe : TokenType → String
  | identifier => "identifier"
  | integer => "integer"
  | string => "string"
  | symbol .endOfInput => "end of input"
  | symbol s => "'" ++ s.spelling ++ "'"

/-- The name of the token type in the listing of a token set. -/
def label : TokenType → String
  | identifier => "Ident"
  | integer => "Integer"
  | string => "String"
  | symbol s => s.label

end TokenType

/-- A unit of the program's text. A string's text is what stands between its quotes, as written. -/
inductive Lexeme where
  | identifier (name : String)
  | integer (digits : String)
  | string (text : String)
  | symbol (s : Symbol)
deriving DecidableEq, Inhabited

namespace Lexeme

/-- The type of the lexeme. -/
def type : Lexeme → TokenType
  | identifier _ => .identifier
  | integer _ => .integer
  | string _ => .string
  | symbol s => .symbol s

/-- The text of the lexeme, unless its type already fixes it. -/
def text? : Lexeme → Option String
  | identifier name => some name
  | integer digits => some digits
  | string text => some text
  | symbol _ => none

/-- The lexeme of the given type and text; the text of a symbol is its own. -/
def ofType (t : TokenType) (text : String) : Lexeme :=
  match t with
  | .identifier => identifier text
  | .integer => integer text
  | .string => string text
  | .symbol s => symbol s

end Lexeme

/-- A lexeme, its range of addresses and the line on which it starts. -/
structure Token where
  lexeme : Lexeme
  span : Span
  line : Nat
deriving DecidableEq, Inhabited

namespace Token

/-- The type of the token. -/
def type (t : Token) : TokenType :=
  t.lexeme.type

/-- What is found after the last token of an input that does not mark its end. -/
def missing : Token :=
  { lexeme := .symbol .endOfInput, span := { start := 0, length := 0 }, line := 0 }

end Token

end Rpal
