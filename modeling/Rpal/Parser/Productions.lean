import Rpal.Parser.Basic

/-!
# The grammar of the language

One parser per production. Three productions occur within themselves: expressions, the branches of
a conditional, and definitions. The parsers take those three as an argument `self`, and every use of
`self` comes after a token was taken, so that the number of tokens bounds the nesting.

The productions, from the loosest to the tightest:

* an expression is `let` definition `in` expression, `fn` parameters `.` expression, or a `where`
  clause: a tuple with a definition behind `where`, or without;
* a tuple is a list of augmentations between commas; an augmentation is a chain of conditionals
  joined by `aug`; a conditional is a disjunction with two branches behind `->` and `|`, or without;
* disjunctions, conjunctions, negations and comparisons of sums; sums of products of powers, with a
  sign in front of the first product; powers of applications by name; applications by name of
  applications; applications of operands;
* a definition is a sequence of simultaneous definitions between `within`; those are joined by
  `and`, may be recursive, and define a list of names, a function, or what a definition in
  parentheses does.
-/

namespace Rpal

namespace Parser

/-- The productions that occur within themselves. -/
inductive Goal where
  | expression
  | branch
  | definition
deriving DecidableEq, Inhabited

/-- The tokens that an operand of an application starts with. -/
def operandStart : TokenSet :=
  .ofList [.identifier, .integer, .string, .symbol .trueKw, .symbol .falseKw, .symbol .nilKw,
    .symbol .dummyKw, .symbol .lparen]

/-- The tokens that a parameter starts with. -/
def parameterStart : TokenSet :=
  .ofList [.identifier, .symbol .lparen]

/-- The operators between sums. -/
def comparisons : List (Symbol × Kind) :=
  [(.grKw, .binary (.integer .gr)), (.greater, .binary (.integer .gr)),
   (.geKw, .binary (.integer .ge)), (.greaterEq, .binary (.integer .ge)),
   (.lsKw, .binary (.integer .ls)), (.less, .binary (.integer .ls)),
   (.leKw, .binary (.integer .le)), (.lessEq, .binary (.integer .le)),
   (.eqKw, .binary (.equality .eq)), (.neKw, .binary (.equality .ne))]

/-- The operators between products. -/
def additive : List (Symbol × Kind) :=
  [(.plus, .binary (.integer .plus)), (.minus, .binary (.integer .minus))]

/-- The operators between powers. -/
def multiplicative : List (Symbol × Kind) :=
  [(.star, .binary (.integer .times)), (.slash, .binary (.integer .divide))]

/-- The leaf that a lexeme is as an operand. -/
def leaf? : Lexeme → Option (Kind × Option String)
  | .identifier name => some (.identifier, some name)
  | .integer digits => some (.integer, some digits)
  | .string text => some (.string, some text)
  | .symbol .trueKw => some (.truth true, none)
  | .symbol .falseKw => some (.truth false, none)
  | .symbol .nilKw => some (.nil, none)
  | .symbol .dummyKw => some (.dummy, none)
  | .symbol _ => none

/-- An identifier as a leaf. -/
def nameLeaf (t : Token) : Tree Label :=
  .leaf { kind := .identifier, text := t.lexeme.text?, line := t.line }

/-- An identifier. -/
def name : Parser (Tree Label) :=
  return nameLeaf (← require .identifier)

/-- The list of names that starts with `first`. -/
def nameList (first : Tree Label) : Parser (Tree Label) :=
  return gathered .names first (← separated .comma name first)

/-- A parameter: a name, or a list of names in parentheses, which may be empty. -/
def parameter : Parser (Tree Label) := do
  match ← accept? .identifier with
  | some t => return nameLeaf t
  | none =>
    let paren ← require (.symbol .lparen)
    match ← accept? (.symbol .rparen) with
    | some _ => return .leaf { kind := .unit, text := none, line := paren.line }
    | none =>
      let names ← nameList (← name)
      let _ ← keeping [names] (require (.symbol .rparen))
      return names

section

variable (self : Goal → Parser (Tree Label))

/-- An expression in parentheses, where an operand is looked for. -/
def parenthesized : Parser (Tree Label) := do
  match ← accept? (.symbol .lparen) with
  | some _ =>
    let inner ← self .expression
    let _ ← keeping [inner] (require (.symbol .rparen))
    return inner
  | none =>
    let _ ← startsWith operandStart
    unexpected

/-- An operand of an application: a leaf, or an expression in parentheses. -/
def operand : Parser (Tree Label) := do
  let t := (← get).current
  match leaf? t.lexeme with
  | some (kind, text) =>
    modify Cursor.advance
    return .leaf { kind, text, line := t.line }
  | none => parenthesized self

/-- A chain of operands, each the argument of what is before it. -/
def application : Parser (Tree Label) := do
  iterate (fun f => do
    if ← startsWith operandStart then
      return some (.branch .gamma [f, ← keeping [f] (operand self)])
    else
      return none) (← operand self)

/-- Applications with the names of functions between them. -/
def applicationByName : Parser (Tree Label) := do
  iterate (fun left => do
    match ← accept? (.symbol .atSign) with
    | none => return none
    | some _ =>
      let f ← keeping [left] name
      return some (.branch .atName [left, f, ← keeping [left, f] (application self)]))
    (← application self)

/-- Powers, grouped from the right. -/
def power : Parser (Tree Label) := do
  let base ← applicationByName self
  return rightNested (.binary (.integer .power)) base
    (← separated .power (applicationByName self) base)

/-- A chain of powers with `*` and `/` between them. -/
def product : Parser (Tree Label) := do
  leftNested multiplicative (power self) (← power self)

/-- The first product of a sum, with its sign. -/
def signedProduct : Parser (Tree Label) := do
  match ← accept? (.symbol .plus) with
  | some _ => product self
  | none =>
    match ← accept? (.symbol .minus) with
    | some _ => return .branch .neg [← product self]
    | none => product self

/-- A chain of products with `+` and `-` between them. -/
def sum : Parser (Tree Label) := do
  leftNested additive (product self) (← signedProduct self)

/-- A sum, or a comparison of two. -/
def comparison : Parser (Tree Label) := do
  let left ← sum self
  match ← oneOf? comparisons with
  | none => return left
  | some kind => return .branch kind [left, ← keeping [left] (sum self)]

/-- A comparison, or the negation of one. -/
def negation : Parser (Tree Label) := do
  match ← accept? (.symbol .notKw) with
  | some _ => return .branch .not [← comparison self]
  | none => comparison self

/-- A chain of negations with `&` between them. -/
def conjunction : Parser (Tree Label) := do
  leftNested [(.ampersand, .binary (.logical .and))] (negation self) (← negation self)

/-- A chain of conjunctions with `or` between them. -/
def disjunction : Parser (Tree Label) := do
  leftNested [(.orKw, .binary (.logical .or))] (conjunction self) (← conjunction self)

/-- A disjunction, or one with two branches. -/
def conditional : Parser (Tree Label) := do
  let condition ← disjunction self
  match ← accept? (.symbol .arrow) with
  | none => return condition
  | some _ =>
    let first ← keeping [condition] (self .branch)
    let _ ← keeping [condition, first] (require (.symbol .bar))
    let second ← keeping [condition, first] (self .branch)
    return .branch .conditional [condition, first, second]

/-- A chain of conditionals with `aug` between them. -/
def augmentation : Parser (Tree Label) := do
  leftNested [(.augKw, .binary .aug)] (conditional self) (← conditional self)

/-- A list of augmentations. -/
def tuple : Parser (Tree Label) := do
  let first ← augmentation self
  return gathered .tau first (← separated .comma (augmentation self) first)

/-- The definition of a list of names or of a function, or a definition in parentheses. -/
def basicDefinition : Parser (Tree Label) := do
  match ← accept? (.symbol .lparen) with
  | some _ =>
    let inner ← self .definition
    let _ ← keeping [inner] (require (.symbol .rparen))
    return inner
  | none =>
    -- a name alone begins a list of names; with parameters behind it, it is that of a function
    let first ← name
    match ← many parameterStart parameter first with
    | [] =>
      let names ← nameList first
      let _ ← keeping [names] (require (.symbol .equals))
      return .branch .equation [names, ← keeping [names] (self .expression)]
    | parameters =>
      let _ ← keeping (first :: parameters) (require (.symbol .equals))
      let body ← keeping (first :: parameters) (self .expression)
      return .branch .functionForm (first :: parameters ++ [body])

/-- A basic definition, or a recursive one. -/
def recursiveDefinition : Parser (Tree Label) := do
  match ← accept? (.symbol .recKw) with
  | some _ => return .branch .recursive [← basicDefinition self]
  | none => basicDefinition self

/-- Definitions that hold at the same time. -/
def simultaneousDefinition : Parser (Tree Label) := do
  let first ← recursiveDefinition self
  return gathered .simultaneous first (← separated .andKw (recursiveDefinition self) first)

/-- Definitions that hold within those behind them, grouped from the right. -/
def definition : Parser (Tree Label) := do
  let first ← simultaneousDefinition self
  return rightNested .within first (← separated .withinKw (simultaneousDefinition self) first)

/-- A tuple, or one with a definition behind it. -/
def whereClause : Parser (Tree Label) := do
  let body ← tuple self
  match ← accept? (.symbol .whereKw) with
  | none => return body
  | some _ => return .branch .whereIn [body, ← keeping [body] (recursiveDefinition self)]

/-- An expression. -/
def expression : Parser (Tree Label) := do
  match ← accept? (.symbol .letKw) with
  | some _ =>
    let bound ← self .definition
    let _ ← keeping [bound] (require (.symbol .inKw))
    return .branch .letIn [bound, ← keeping [bound] (self .expression)]
  | none =>
    match ← accept? (.symbol .fnKw) with
    | some _ =>
      let first ← parameter
      let more ← many parameterStart parameter first
      let _ ← keeping (first :: more) (require (.symbol .dot))
      let body ← keeping (first :: more) (self .expression)
      return .branch .lambda (first :: more ++ [body])
    | none => whereClause self

/-- The parser for a goal, given the parsers for the goals within it. -/
def goal : Goal → Parser (Tree Label)
  | .expression => expression self
  | .branch => conditional self
  | .definition => definition self

end

/-- The parser for goals that are nested less than `depth` deep. -/
def nested : Nat → Goal → Parser (Tree Label)
  | 0, _ => unexpected
  | depth + 1, g => goal (nested depth) g

/-- An expression up to the end of the input. -/
def program : Parser (Tree Label) := do
  let t ← nested ((← get).rest.length + 1) .expression
  let _ ← keeping [t] (require (.symbol .endOfInput))
  return t

end Parser

namespace Tree

/-- The tree of a program's tokens. -/
def ofTokens (tokens : List Token) : Except SyntaxError (Tree Label) :=
  (Parser.program (Cursor.ofTokens tokens)).map (·.1)

end Tree

end Rpal
