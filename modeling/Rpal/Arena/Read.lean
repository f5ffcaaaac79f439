import Rpal.Arena.Basic
import Rpal.Parser.Productions

/-!
# Parsing into an arena

An arena that holds other nodes already can take in a program's tree. The productions are those of
`Parser`. A reader, however, only has the places of trees at hand, and adds a node to the arena as
soon as its operands are there. What it added before it stops stays in the arena.
-/

namespace Rpal

/-- A parser that adds nodes to an arena, and goes on to have them there when it stops. -/
abbrev Reader (α : Type) : Type :=
  StateT Cursor (ExceptT SyntaxError (StateM Arena)) α

namespace Reader

open Rpal.Parser (Goal operandStart parameterStart comparisons additive multiplicative leaf?)

variable {α : Type}

/-- A parser that adds no nodes. -/
def ofParser (p : Parser α) : Reader α := fun c a =>
  (p c, a)

/-- Takes the current token if it has type `tt`. -/
def accept? (tt : TokenType) : Reader (Option Token) :=
  ofParser (Parser.accept? tt)

/-- Takes the current token, which must have type `tt`. -/
def require (tt : TokenType) : Reader Token :=
  ofParser (Parser.require tt)

/-- The current token has a type in `set`; it is not taken. -/
def startsWith (set : TokenSet) : Reader Bool :=
  ofParser (Parser.startsWith set)

/-- Takes the current token if it is in the table, and returns what the table says about it. -/
def oneOf? (table : List (Symbol × α)) : Reader (Option α) :=
  ofParser (Parser.oneOf? table)

/-- Adds a leaf. -/
def leaf (l : Label) : Reader Nat := fun c a =>
  (.ok (a.nextId, c), a.alloc l)

/-- Adds a node over `ids`, on the line of the first of them. -/
def branch (kind : Kind) (ids : List Nat) : Reader Nat := fun c a =>
  (.ok (a.nextId, c), a.allocOver kind ids)

/-! ### Loops -/

/-- Repeats `step`, at most once for every member of `bound`, until it has nothing to add. -/
def iterateAlong (step : α → Reader (Option α)) : List Token → α → Reader α
  | [], x => return x
  | _ :: bound, x => do
    match ← step x with
    | none => return x
    | some y => iterateAlong step bound y

/-- Repeats `step`, which takes a token each time that it adds something, until it has nothing to
    add. -/
def iterate (step : α → Reader (Option α)) (x : α) : Reader α := fun c =>
  iterateAlong step (c.current :: c.rest) x c

/-- Items, each after a separator. -/
def separated (separator : Symbol) (item : Reader Nat) : Reader (List Nat) := do
  let behind ← iterate (fun behind => do
    match ← accept? (.symbol separator) with
    | none => return none
    | some _ => return some ((← item) :: behind)) []
  return behind.reverse

/-- Items, which are there as long as a token of `start` is. -/
def many (start : TokenSet) (item : Reader Nat) : Reader (List Nat) := do
  let behind ← iterate (fun behind => do
    if ← startsWith start then
      return some ((← item) :: behind)
    else
      return none) []
  return behind.reverse

/-- Operands behind `left`, each after an operator of the table, grouped from the left. -/
def leftNested (operators : List (Symbol × Kind)) (operand : Reader Nat) (left : Nat) :
    Reader Nat :=
  iterate (fun left => do
    match ← oneOf? operators with
    | none => return none
    | some kind => return some (← branch kind [left, ← operand])) left

/-- The trees grouped from the right. -/
def rightNested (kind : Kind) (first : Nat) : List Nat → Reader Nat
  | [] => return first
  | id :: ids => do branch kind [first, ← rightNested kind id ids]

/-- The trees as operands of one node, unless there is only one. -/
def gathered (kind : Kind) (first : Nat) : List Nat → Reader Nat
  | [] => return first
  | ids => branch kind (first :: ids)

/-! ### Productions -/

/-- An identifier as a leaf. -/
def nameLeaf (t : Token) : Reader Nat :=
  leaf { kind := .identifier, text := t.lexeme.text?, line := t.line }

/-- An identifier. -/
def name : Reader Nat := do
  nameLeaf (← require .identifier)

/-- The list of names that starts with `first`. -/
def nameList (first : Nat) : Reader Nat := do
  gathered .names first (← separated .comma name)

/-- A parameter: a name, or a list of names in parentheses, which may be empty. -/
def parameter : Reader Nat := do
  match ← accept? .identifier with
  | some t => nameLeaf t
  | none =>
    let paren ← require (.symbol .lparen)
    match ← accept? (.symbol .rparen) with
    | some _ => leaf { kind := .unit, text := none, line := paren.line }
    | none =>
      let names ← nameList (← name)
      let _ ← require (.symbol .rparen)
      return names

section

variable (self : Goal → Reader Nat)

/-- An expression in parentheses, where an operand is looked for. -/
def parenthesized : Reader Nat := do
  match ← accept? (.symbol .lparen) with
  | some _ =>
    let inner ← self .expression
    let _ ← require (.symbol .rparen)
    return inner
  | none =>
    let _ ← startsWith operandStart
    ofParser Parser.unexpected

/-- An operand of an application: a leaf, or an expression in parentheses. -/
def operand : Reader Nat := do
  let t := (← get).current
  match leaf? t.lexeme with
  | some (kind, text) =>
    modify Cursor.advance
    leaf { kind, text, line := t.line }
  | none => parenthesized self

/-- A chain of operands, each the argument of what is before it. -/
def application : Reader Nat := do
  iterate (fun f => do
    if ← startsWith operandStart then
      return some (← branch .gamma [f, ← operand self])
    else
      return none) (← operand self)

/-- Applications with the names of functions between them. -/
def applicationByName : Reader Nat := do
  iterate (fun left => do
    match ← accept? (.symbol .atSign) with
    | none => return none
    | some _ =>
      let f ← name
      return some (← branch .atName [left, f, ← application self]))
    (← application self)

/-- Powers, grouped from the right. -/
def power : Reader Nat := do
  let base ← applicationByName self
  rightNested (.binary (.integer .power)) base (← separated .power (applicationByName self))

/-- A chain of powers with `*` and `/` between them. -/
def product : Reader Nat := do
  leftNested multiplicative (power self) (← power self)

/-- The first product of a sum, with its sign. -/
def signedProduct : Reader Nat := do
  match ← accept? (.symbol .plus) with
  | some _ => product self
  | none =>
    match ← accept? (.symbol .minus) with
    | some _ => branch .neg [← product self]
    | none => product self

/-- A chain of products with `+` and `-` between them. -/
def sum : Reader Nat := do
  leftNested additive (product self) (← signedProduct self)

/-- A sum, or a comparison of two. -/
def comparison : Reader Nat := do
  let left ← sum self
  match ← oneOf? comparisons with
  | none => return left
  | some kind => branch kind [left, ← sum self]

/-- A comparison, or the negation of one. -/
def negation : Reader Nat := do
  match ← accept? (.symbol .notKw) with
  | some _ => branch .not [← comparison self]
  | none => comparison self

/-- A chain of negations with `&` between them. -/
def conjunction : Reader Nat := do
  leftNested [(.ampersand, .binary (.logical .and))] (negation self) (← negation self)

/-- A chain of conjunctions with `or` between them. -/
def disjunction : Reader Nat := do
  leftNested [(.orKw, .binary (.logical .or))] (conjunction self) (← conjunction self)

/-- A disjunction, or one with two branches. -/
def conditional : Reader Nat := do
  let condition ← disjunction self
  match ← accept? (.symbol .arrow) with
  | none => return condition
  | some _ =>
    let first ← self .branch
    let _ ← require (.symbol .bar)
    let second ← self .branch
    branch .conditional [condition, first, second]

/-- A chain of conditionals with `aug` between them. -/
def augmentation : Reader Nat := do
  leftNested [(.augKw, .binary .aug)] (conditional self) (← conditional self)

/-- A list of augmentations. -/
def tuple : Reader Nat := do
  let first ← augmentation self
  gathered .tau first (← separated .comma (augmentation self))

/-- The definition of a list of names or of a function, or a definition in parentheses. -/
def basicDefinition : Reader Nat := do
  match ← accept? (.symbol .lparen) with
  | some _ =>
    let inner ← self .definition
    let _ ← require (.symbol .rparen)
    return inner
  | none =>
    let first ← name
    match ← many parameterStart parameter with
    | [] =>
      let names ← nameList first
      let _ ← require (.symbol .equals)
      branch .equation [names, ← self .expression]
    | parameters =>
      let _ ← require (.symbol .equals)
      let body ← self .expression
      branch .functionForm (first :: parameters ++ [body])

/-- A basic definition, or a recursive one. -/
def recursiveDefinition : Reader Nat := do
  match ← accept? (.symbol .recKw) with
  | some _ => branch .recursive [← basicDefinition self]
  | none => basicDefinition self

/-- Definitions that hold at the same time. -/
def simultaneousDefinition : Reader Nat := do
  let first ← recursiveDefinition self
  gathered .simultaneous first (← separated .andKw (recursiveDefinition self))

/-- Definitions that hold within those behind them, grouped from the right. -/
def definition : Reader Nat := do
  let first ← simultaneousDefinition self
  rightNested .within first (← separated .withinKw (simultaneousDefinition self))

/-- A tuple, or one with a definition behind it. -/
def whereClause : Reader Nat := do
  let body ← tuple self
  match ← accept? (.symbol .whereKw) with
  | none => return body
  | some _ => branch .whereIn [body, ← recursiveDefinition self]

/-- An expression. -/
def expression : Reader Nat := do
  match ← accept? (.symbol .letKw) with
  | some _ =>
    let bound ← self .definition
    let _ ← require (.symbol .inKw)
    branch .letIn [bound, ← self .expression]
  | none =>
    match ← accept? (.symbol .fnKw) with
    | some _ =>
      let first ← parameter
      let more ← many parameterStart parameter
      let _ ← require (.symbol .dot)
      let body ← self .expression
      branch .lambda (first :: more ++ [body])
    | none => whereClause self

/-- The reader for a goal, given the readers for the goals within it. -/
def goal : Goal → Reader Nat
  | .expression => expression self
  | .branch => conditional self
  | .definition => definition self

end

/-- The reader for goals that are nested less than `depth` deep. -/
def nested : Nat → Goal → Reader Nat
  | 0, _ => ofParser Parser.unexpected
  | depth + 1, g => goal (nested depth) g

/-- An expression up to the end of the input. -/
def program : Reader Nat := do
  let id ← nested ((← get).rest.length + 1) .expression
  let _ ← require (.symbol .endOfInput)
  return id

end Reader

/-- Adds the tree of a program's tokens to an arena, and returns the place of its root. -/
def Arena.read (a : Arena) (tokens : List Token) : Except SyntaxError Nat × Arena :=
  match Reader.program (Cursor.ofTokens tokens) a with
  | (.ok (id, _), a) => (.ok id, a)
  | (.error e, a) => (.error e, a)

end Rpal
