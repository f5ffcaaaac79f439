import Rpal.Diagnostic
import Rpal.Token.Set
import Rpal.Tree.Kind

/-!
# Parsers with one token of lookahead

A parser reads tokens from a cursor and never goes back. The cursor remembers every token type that
was looked for at its place and not found, so that a parse that stops can say what would have
let it go on. It also says which trees were already complete.

A loop of a parser takes at least one token each time, so the tokens that are left bound it:
`iterate` goes along them.
-/

namespace Rpal

/-- A parse that stopped: at which token, which token types it would have gone on with, and the
    trees that it had completed and not yet made part of another, in order. -/
structure SyntaxError where
  actual : Token
  expected : TokenSet
  pending : List (Tree Label)
deriving Inhabited

namespace SyntaxError

/-- The error as a diagnostic. The end of the input is a point, any other token a span. -/
def diagnostic (e : SyntaxError) : Diagnostic :=
  { highlight :=
      match e.actual.lexeme with
      | .symbol .endOfInput => .point e.actual.span.start
      | _ => .span e.actual.span
    message :=
      "Unexpected " ++ e.actual.type.describe ++ ", expecting one of: " ++ e.expected.describe }

end SyntaxError

/-- What is left of the input, and the token types that were looked for at its head in vain. -/
structure Cursor where
  rest : List Token
  expected : TokenSet
deriving Inhabited

namespace Cursor

/-- The cursor before `tokens`. -/
def ofTokens (tokens : List Token) : Cursor :=
  { rest := tokens, expected := .empty }

/-- The token at the head of the input. -/
def current (c : Cursor) : Token :=
  match c.rest with
  | [] => Token.missing
  | t :: _ => t

/-- The cursor after the token at its head. -/
def advance (c : Cursor) : Cursor :=
  { rest := c.rest.tail, expected := .empty }

/-- The cursor after `tt` was looked for in vain. -/
def miss (c : Cursor) (tt : TokenType) : Cursor :=
  { c with expected := c.expected.insert tt }

end Cursor

/-- A parser with results in `α`. -/
abbrev Parser (α : Type) : Type :=
  StateT Cursor (Except SyntaxError) α

namespace Parser

variable {α : Type}

/-- Stops at the current token. -/
def unexpected : Parser α := fun c =>
  .error { actual := c.current, expected := c.expected, pending := [] }

/-- Takes the current token if it has type `tt`. -/
def accept? (tt : TokenType) : Parser (Option Token) := fun c =>
  if c.current.type = tt then .ok (some c.current, c.advance) else .ok (none, c.miss tt)

/-- Takes the current token, which must have type `tt`. -/
def require (tt : TokenType) : Parser Token := do
  match ← accept? tt with
  | some t => return t
  | none => unexpected

/-- The current token has a type in `set`; it is not taken. -/
def startsWith (set : TokenSet) : Parser Bool := fun c =>
  if set.contains c.current.type then .ok (true, c)
  else .ok (false, { c with expected := c.expected.union set })

/-- Takes the current token if it is in the table, and returns what the table says about it. -/
def oneOf? : List (Symbol × α) → Parser (Option α)
  | [] => return none
  | (s, a) :: more => do
    match ← accept? (.symbol s) with
    | some _ => return some a
    | none => oneOf? more

/-- `p` after the trees `parts` were completed: they are still pending if `p` stops. -/
def keeping (parts : List (Tree Label)) (p : Parser α) : Parser α := fun c =>
  match p c with
  | .ok r => .ok r
  | .error e => .error { e with pending := parts ++ e.pending }

/-- `p` after `first` and the trees `behind` it were completed, the last of them first. -/
def keepingFrom (first : Tree Label) (behind : List (Tree Label)) (p : Parser α) : Parser α :=
  fun c =>
    match p c with
    | .ok r => .ok r
    | .error e => .error { e with pending := first :: (behind.reverse ++ e.pending) }

/-- Repeats `step`, at most once for every member of `bound`, until it has nothing to add. -/
def iterateAlong (step : α → Parser (Option α)) : List Token → α → Parser α
  | [], a => return a
  | _ :: bound, a => do
    match ← step a with
    | none => return a
    | some b => iterateAlong step bound b

/-- Repeats `step`, which takes a token each time that it adds something, until it has nothing to
    add. -/
def iterate (step : α → Parser (Option α)) (a : α) : Parser α := fun c =>
  iterateAlong step (c.current :: c.rest) a c

/-- The items behind `first`, each after a separator. -/
def separated (separator : Symbol) (item : Parser (Tree Label)) (first : Tree Label) :
    Parser (List (Tree Label)) := do
  let behind ← iterate (fun behind => do
    match ← accept? (.symbol separator) with
    | none => return none
    | some _ => return some ((← keepingFrom first behind item) :: behind)) []
  return behind.reverse

/-- The items behind `first`, which are there as long as a token of `start` is. -/
def many (start : TokenSet) (item : Parser (Tree Label)) (first : Tree Label) :
    Parser (List (Tree Label)) := do
  let behind ← iterate (fun behind => do
    if ← startsWith start then
      return some ((← keepingFrom first behind item) :: behind)
    else
      return none) []
  return behind.reverse

/-- Operands behind `left`, each after an operator of the table, grouped from the left. -/
def leftNested (operators : List (Symbol × Kind)) (operand : Parser (Tree Label))
    (left : Tree Label) : Parser (Tree Label) :=
  iterate (fun left => do
    match ← oneOf? operators with
    | none => return none
    | some kind => return some (.branch kind [left, ← keeping [left] operand])) left

/-- The trees grouped from the right. -/
def rightNested (kind : Kind) (first : Tree Label) : List (Tree Label) → Tree Label
  | [] => first
  | t :: ts => .branch kind [first, rightNested kind t ts]

/-- The trees as operands of one node, unless there is only one. -/
def gathered (kind : Kind) (first : Tree Label) : List (Tree Label) → Tree Label
  | [] => first
  | ts => .branch kind (first :: ts)

end Parser

end Rpal
