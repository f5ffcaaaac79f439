import Rpal.Machine.Error
import Rpal.Value.Integer

/-!
# Operations on values

What the operators and the built-in functions do with the values that they are given, apart from
what they do to the machine.
-/

namespace Rpal

variable {φ : Type}

/-- An exact result as a value, or an overflow if there is none. -/
def FaultOf.orOverflow (result : Option Int64) : Except (FaultOf φ) (ValueOf φ) :=
  match result with
  | some n => .ok (.integer n)
  | none => .error .overflow

namespace IntegerOp

/-- The power with a negative exponent: the reciprocal, rounded toward zero. -/
def reciprocalPower (base : Int64) (exponent : Nat) : Except (FaultOf φ) (ValueOf φ) :=
  if base = 0 then .error .divisionByZero
  else if base = 1 then .ok (.integer 1)
  else if base = -1 then .ok (.integer (if exponent % 2 = 0 then 1 else -1))
  else .ok (.integer 0)

/-- The operator on two integers. -/
def apply (op : IntegerOp) (left right : Int64) : Except (FaultOf φ) (ValueOf φ) :=
  let l := left.toInt
  let r := right.toInt
  match op with
  | plus => FaultOf.orOverflow (Integer.checked (l + r))
  | minus => FaultOf.orOverflow (Integer.checked (l - r))
  | times => FaultOf.orOverflow (Integer.checked (l * r))
  | divide =>
    if r = 0 then .error .divisionByZero else FaultOf.orOverflow (Integer.checked (l.tdiv r))
  | power =>
    if 0 ≤ r then FaultOf.orOverflow (Integer.checkedPow left r.toNat)
    else reciprocalPower left r.natAbs
  | ls => .ok (.truth (l < r))
  | le => .ok (.truth (l ≤ r))
  | gr => .ok (.truth (r < l))
  | ge => .ok (.truth (r ≤ l))

end IntegerOp

namespace LogicalOp

/-- The operator on two truth values. -/
def apply : LogicalOp → Bool → Bool → Bool
  | or, left, right => left || right
  | and, left, right => left && right

end LogicalOp

namespace EqualityOp

/-- The result of the operator on values that are equal, or not. -/
def apply : EqualityOp → Bool → Bool
  | eq, equal => equal
  | ne, equal => !equal

end EqualityOp

namespace ValueOf

/-- Whether two values of one type with an equality are equal. The other faults tell values of one
    type from those of two. -/
def equal (op : EqualityOp) (left right : ValueOf φ) : Except (FaultOf φ) Bool :=
  match left, right with
  | truth l, truth r => .ok (l = r)
  | integer l, integer r => .ok (l = r)
  | string l, string r => .ok (l = r)
  | dummy, dummy | tuple _, tuple _ | closure .., closure .. | eta .., eta .. | ystar, ystar
  | builtin _, builtin _ => .error (.type (.incomparable op left right))
  | _, _ => .error (.type (.dissimilar left right))

/-- The integer of opposite sign. -/
def negated : ValueOf φ → Except (FaultOf φ) (ValueOf φ)
  | integer n => FaultOf.orOverflow (Integer.checked (-n.toInt))
  | v => .error (.type (.notNegatable v))

/-- The other truth value. -/
def inverted : ValueOf φ → Except (FaultOf φ) (ValueOf φ)
  | truth b => .ok (truth !b)
  | v => .error (.type (.notBoolean v))

/-- The element of a tuple at `index`, counted from 1. -/
def element (elements : List (ValueOf φ)) : ValueOf φ → Except (FaultOf φ) (ValueOf φ)
  | integer index =>
    if 1 ≤ index.toInt then
      match elements[index.toInt.toNat - 1]? with
      | some v => .ok v
      | none => .error (.indexOutOfBounds index)
    else
      .error (.indexOutOfBounds index)
  | v => .error (.type (.notIndex v))

/-- Two strings, one after the other. -/
def joined : ValueOf φ → ValueOf φ → Except (FaultOf φ) (ValueOf φ)
  | string l, string r => .ok (string (l ++ r))
  | l, r => .error (.type (.notTwoStrings l r))

end ValueOf

namespace BinaryOp

/-- The operator on two values. -/
def apply (op : BinaryOp) (left right : ValueOf φ) : Except (FaultOf φ) (ValueOf φ) :=
  match op with
  | integer op =>
    match left, right with
    | .integer l, .integer r => op.apply l r
    | _, _ => .error (.type (.notTwoIntegers left right))
  | logical op =>
    match left, right with
    | .truth l, .truth r => .ok (.truth (op.apply l r))
    | _, _ => .error (.type (.notTwoTruthValues op left right))
  | equality op => do return .truth (op.apply (← ValueOf.equal op left right))
  | aug =>
    match left with
    | .tuple elements => .ok (.tuple (elements ++ [right]))
    | _ => .error (.type (.notAppendable left))

end BinaryOp

namespace Builtin

/-- A function on strings. -/
def onString (b : Builtin) (f : List Char → ValueOf φ) :
    ValueOf φ → Except (FaultOf φ) (ValueOf φ)
  | .string s => .ok (f s.toList)
  | v => .error (.type (.notString b v))

/-- A function on tuples. -/
def onTuple (b : Builtin) (f : List (ValueOf φ) → Except (FaultOf φ) (ValueOf φ)) :
    ValueOf φ → Except (FaultOf φ) (ValueOf φ)
  | .tuple elements => f elements
  | v => .error (.type (.notTuple b v))

/-- The value of a built-in function at one argument. `Conc` needs another. -/
def apply (b : Builtin) (v : ValueOf φ) : Except (FaultOf φ) (ValueOf φ) :=
  match b with
  | isInteger => .ok (.truth v.isInteger)
  | isString => .ok (.truth v.isString)
  | isTuple => .ok (.truth v.isTuple)
  | isDummy => .ok (.truth v.isDummy)
  | isTruthValue => .ok (.truth v.isTruthValue)
  | isFunction => .ok (.truth v.isFunction)
  | itoS =>
    match v with
    | .integer n => .ok (.string (toString n.toInt))
    | v => .error (.type (.notInteger v))
  | order => onTuple order (fun vs => FaultOf.orOverflow (Integer.checked vs.length)) v
  | null => onTuple null (fun vs => .ok (.truth vs.isEmpty)) v
  | stem => onString stem (fun cs => .string (String.ofList (cs.take 1))) v
  | stern => onString stern (fun cs => .string (String.ofList (cs.drop 1))) v
  | neg => v.negated
  | print => .ok .dummy
  | conc => .error (.type (.concAlone v))

end Builtin

end Rpal
