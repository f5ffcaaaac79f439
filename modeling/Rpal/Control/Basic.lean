import Rpal.Arena.Basic

/-!
# Control structures

A standardized program is a set of control sequences, one for the program itself and one for the
body of every lambda. A sequence refers to the nodes of the program's arena, to other sequences by
number, and to the pairs of branches of its conditionals.
-/

namespace Rpal

/-- An item of a control sequence. -/
inductive ControlItem where
  | node (id : Nat)
  /-- The body of a lambda. -/
  | delta (index : Nat)
  /-- The branches of a conditional. -/
  | beta (index : Nat)
deriving DecidableEq, Inhabited

/-- The control sequence of a lambda's body, with the names that the lambda binds. -/
structure Delta where
  index : Nat
  vars : List String
  line : Nat
  body : List ControlItem
deriving DecidableEq, Inhabited

/-- The control sequences of the branches of a conditional. -/
structure Beta where
  line : Nat
  whenTrue : List ControlItem
  whenFalse : List ControlItem
deriving DecidableEq, Inhabited

/-- The control sequences of a program. The first delta is the program itself. -/
structure Control where
  deltas : Array Delta
  betas : Array Beta
deriving DecidableEq, Inhabited

namespace Control

/-- The delta with the given number. -/
def delta (c : Control) (index : Nat) : Delta :=
  c.deltas.getD index default

/-- The beta with the given number. -/
def beta (c : Control) (index : Nat) : Beta :=
  c.betas.getD index default

/-- The delta of the program itself. -/
def root (c : Control) : Delta :=
  c.delta 0

end Control

end Rpal
