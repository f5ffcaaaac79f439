import Rpal.Tree.Basic

/-!
# The constructs of the language

A node of a program's tree is labelled with its construct, with the text of a literal, and with a
source line.
-/

namespace Rpal

/-- The operators on two integers. -/
inductive IntegerOp where
  | plus | minus | times | divide | power | gr | ge | ls | le
deriving DecidableEq, Inhabited

/-- The operators on two truth values. -/
inductive LogicalOp where
  | or | and
deriving DecidableEq, Inhabited

/-- The comparisons of two values of one type. -/
inductive EqualityOp where
  | eq | ne
deriving DecidableEq, Inhabited

/-- The operators with a left and a right operand. -/
inductive BinaryOp where
  | integer (op : IntegerOp)
  | logical (op : LogicalOp)
  | equality (op : EqualityOp)
  /-- Appends a value to a tuple. -/
  | aug
deriving DecidableEq, Inhabited

/-- The constructs of a program. Definitions, `where` clauses and applications of the form `a @f b`
    do not occur in a standardized program, which has `ystar` instead of recursive definitions. -/
inductive Kind where
  | identifier | integer | string
  | truth (value : Bool) | nil | dummy
  /-- The fixpoint finder. -/
  | ystar
  | binary (op : BinaryOp) | not | neg
  /-- The tuple of the operands. -/
  | tau
  /-- The application of the first operand to the second. -/
  | gamma
  | conditional | lambda
  | letIn | whereIn | within | simultaneous | recursive | functionForm
  /-- An application that names its function between the operands. -/
  | atName
  /-- A definition of a name or of a list of names. -/
  | equation
  /-- A parameter without a name. -/
  | unit
  /-- A parameter that is a list of names. -/
  | names
deriving DecidableEq, Inhabited

namespace IntegerOp

/-- The operator as it is printed. -/
def symbol : IntegerOp → String
  | plus => "+" | minus => "-" | times => "*" | divide => "/" | power => "**"
  | gr => "gr" | ge => "ge" | ls => "ls" | le => "le"

end IntegerOp

namespace LogicalOp

/-- The operator as it is printed. -/
def symbol : LogicalOp → String
  | or => "or"
  | and => "&"

end LogicalOp

namespace EqualityOp

/-- The operator as it is printed. -/
def symbol : EqualityOp → String
  | eq => "eq"
  | ne => "ne"

end EqualityOp

namespace BinaryOp

/-- The operator as it is printed. -/
def symbol : BinaryOp → String
  | integer op => op.symbol
  | logical op => op.symbol
  | equality op => op.symbol
  | aug => "aug"

end BinaryOp

namespace Kind

/-- The construct as it is printed; for a literal, the tag in front of its text. -/
def symbol : Kind → String
  | identifier => "ID" | integer => "INT" | string => "STR"
  | truth true => "<true>" | truth false => "<false>" | nil => "<nil>" | dummy => "<dummy>"
  | ystar => "<Y*>"
  | binary op => op.symbol | not => "not" | neg => "neg" | tau => "tau" | gamma => "gamma"
  | conditional => "->" | lambda => "lambda"
  | letIn => "let" | whereIn => "where" | within => "within" | simultaneous => "and"
  | recursive => "rec" | functionForm => "function_form" | atName => "@" | equation => "="
  | unit => "<()>" | names => ","

/-- The construct carries its source text. -/
def isLiteral : Kind → Bool
  | identifier | integer | string => true
  | _ => false

end Kind

/-- What a node of a program's tree says about itself. -/
structure Label where
  kind : Kind
  text : Option String
  line : Nat
deriving DecidableEq, Inhabited

namespace Label

/-- The text of the node, empty if it carries none. -/
def content (l : Label) : String :=
  l.text.getD ""

/-- A literal with its text, any other construct by its symbol. -/
def render (l : Label) : String :=
  match l.kind with
  | .string => "<STR:'" ++ l.content ++ "'>"
  | .identifier => "<ID:" ++ l.content ++ ">"
  | .integer => "<INT:" ++ l.content ++ ">"
  | kind => kind.symbol

end Label

namespace Tree

/-- A node over `ts` that is on the line of its first child. -/
def branch (kind : Kind) (ts : List (Tree Label)) : Tree Label :=
  node { kind, text := none, line := (ts.head?.map (·.label.line)).getD 0 } ts

end Tree

end Rpal
