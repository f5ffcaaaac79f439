import Rpal.Value.Printer

/-!
# Errors of evaluation

A fault is what is wrong with a single reduction. It is reported with the line of the program that
was being reduced. The other errors are about the machine as a whole and have no line.
-/

namespace Rpal

/-- A reduction met a value that it does not apply to. -/
inductive TypeFaultOf (φ : Type) where
  | notTwoIntegers (left right : ValueOf φ)
  | notTwoTruthValues (op : LogicalOp) (left right : ValueOf φ)
  /-- The operand of `not`. -/
  | notBoolean (v : ValueOf φ)
  /-- What was to be negated. -/
  | notNegatable (v : ValueOf φ)
  /-- What was to be written in digits. -/
  | notInteger (v : ValueOf φ)
  /-- The left operand of `aug`. -/
  | notAppendable (v : ValueOf φ)
  /-- The values have one type, and it has no equality. -/
  | incomparable (op : EqualityOp) (left right : ValueOf φ)
  | dissimilar (left right : ValueOf φ)
  /-- The condition of a conditional. -/
  | notTruthValue (v : ValueOf φ)
  | notIndex (v : ValueOf φ)
  /-- What a fixpoint was to be found of. -/
  | notClosure (v : ValueOf φ)
  /-- The argument of a function with `count` parameters in one. -/
  | notTupleOf (count : Nat) (v : ValueOf φ)
  /-- `Conc` was applied to one argument, and the result not to another. -/
  | concAlone (v : ValueOf φ)
  | notTwoStrings (left right : ValueOf φ)
  | notString (b : Builtin) (v : ValueOf φ)
  | notTuple (b : Builtin) (v : ValueOf φ)

variable {φ : Type} [FunctionCode φ]

namespace TypeFaultOf

/-- A value in double quotes. -/
def quote (v : ValueOf φ) : String :=
  "\"" ++ v.render ++ "\""

/-- Two values in double quotes. -/
def quotePair (left right : ValueOf φ) : String :=
  quote left ++ ", " ++ quote right

/-- The fault as text. -/
def message : TypeFaultOf φ → String
  | notTwoIntegers left right => "Expected two integers; was given " ++ quotePair left right
  | notTwoTruthValues op left right => "Cannot " ++ op.symbol ++ " " ++ quotePair left right
  | notBoolean v => "Expecting a Boolean Value; was given " ++ quote v
  | notNegatable v => "Expecting an integer; was given " ++ quote v
  | notInteger v => "Expected an integer; was given " ++ quote v
  | notAppendable v => "Cannot append to a non-tuple " ++ quote v
  | incomparable op left right => "Don't know how to " ++ op.symbol ++ " " ++ quotePair left right
  | dissimilar left right => "Cannot compare dissimilar types; was given " ++ quotePair left right
  | notTruthValue v => "Expecting a truthvalue; found " ++ quote v
  | notIndex v => "tuple index must be Integer, Not with " ++ quote v
  | notClosure v => "Expected a Delta; was given " ++ quote v
  | notTupleOf count v =>
    "Expected a tuple of " ++ toString count ++ " elements; was given " ++ quote v
  | concAlone v => "Conc expected two arguments; was given " ++ quote v
  | notTwoStrings left right => "Expected two strings; was given " ++ quotePair left right
  | notString b v => b.name ++ " expected a string; was given " ++ quote v
  | notTuple b v => b.name ++ " expected a tuple; was given " ++ quote v

end TypeFaultOf

/-- What is wrong with a reduction. -/
inductive FaultOf (φ : Type) where
  | undeclared (name : String)
  | type (fault : TypeFaultOf φ)
  /-- The value was applied, and is no function. -/
  | cannotEvaluate (v : ValueOf φ)
  | indexOutOfBounds (index : Int64)
  | divisionByZero
  | overflow
  /-- The construct has no reduction. -/
  | unexpectedItem (construct : Kind)

namespace FaultOf

/-- The fault as text. -/
def message : FaultOf φ → String
  | undeclared name => "identifier is not declared \"" ++ name ++ "\""
  | type fault => fault.message
  | cannotEvaluate v => "Cannot evaluate \"" ++ v.render ++ "\""
  | indexOutOfBounds index => "Tuple index " ++ toString index.toInt ++ " out of bounds"
  | divisionByZero => "division by zero"
  | overflow => "integer overflow"
  | unexpectedItem construct => "'" ++ construct.symbol ++ "' can't appear in a control structure"

end FaultOf

/-- What stops a machine before its program is finished. -/
inductive EvalErrorOf (φ : Type) where
  | fault (line : Nat) (f : FaultOf φ)
  | stackUnderflow
  /-- The program is finished, and more than one value is left. -/
  | leftoverValues (count : Nat)
  /-- The writer did not take all of the output. The reason that is reported is that of a sink. -/
  | outputFull

namespace EvalErrorOf

/-- The line that was being reduced. -/
def line? : EvalErrorOf φ → Option Nat
  | fault line _ => some line
  | _ => none

/-- The error as text. -/
def message : EvalErrorOf φ → String
  | fault line f => "line " ++ toString line ++ ": " ++ f.message
  | stackUnderflow => "machine stack underflow"
  | leftoverValues count =>
    "evaluation finished with " ++ toString count ++ " values on the stack"
  | outputFull => "failed to write program output: sink is full"

end EvalErrorOf

/-- A fault of the machine. -/
abbrev Fault : Type :=
  FaultOf Delta

/-- What stops the machine. -/
abbrev EvalError : Type :=
  EvalErrorOf Delta

end Rpal
