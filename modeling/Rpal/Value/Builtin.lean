/-!
# Built-in functions

The functions that every program can use without defining them.
-/

namespace Rpal

/-- A built-in function. -/
inductive Builtin where
  | isInteger | isString | isTuple | isDummy | isTruthValue | isFunction
  | itoS | order | conc | stern | stem | null | print | neg
deriving DecidableEq, Inhabited

namespace Builtin

/-- Every built-in function. -/
def all : List Builtin :=
  [isInteger, isString, isTuple, isDummy, isTruthValue, isFunction, itoS, order, conc, stern, stem,
   null, print, neg]

/-- The name under which a built-in function is printed. -/
def name : Builtin → String
  | isInteger => "Isinteger" | isString => "Isstring" | isTuple => "Istuple"
  | isDummy => "Isdummy" | isTruthValue => "Istruthvalue" | isFunction => "Isfunction"
  | itoS => "ItoS" | order => "Order" | conc => "Conc" | stern => "Stern" | stem => "Stem"
  | null => "Null" | print => "Print" | neg => "neg"

/-- The name of a built-in function in a listing of values. -/
def label : Builtin → String
  | neg => "Neg"
  | b => b.name

/-- The function that a program calls `name`. Two functions can also be written in lower case. -/
def ofName? (name : String) : Option Builtin :=
  if name = "conc" then some conc
  else if name = "print" then some print
  else all.find? (·.name = name)

/-- Every built-in function is known by the name under which it is printed. -/
theorem ofName?_name (b : Builtin) : ofName? b.name = some b := by
  cases b <;> decide

end Builtin

end Rpal
