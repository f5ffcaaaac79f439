import Rpal.Control.Basic

/-!
# Printed control structures

One line per delta: its number, the names that it binds, and its items. The branches of a
conditional stand where the item for them does.
-/

namespace Rpal

namespace Control

variable (a : Arena) (c : Control)

/-- An item, with the branches of conditionals that are nested up to `depth` deep. -/
def renderItem : Nat → ControlItem → String
  | _, .node id => (a.label id).render
  | _, .delta index => "delta" ++ toString (c.delta index).index
  | 0, .beta _ => "beta"
  | depth + 1, .beta index =>
    "beta(" ++ " ".intercalate ((c.beta index).whenTrue.map (renderItem depth)) ++ " | " ++
      " ".intercalate ((c.beta index).whenFalse.map (renderItem depth)) ++ ")"

/-- The line of a delta. A conditional nests only conditionals that were numbered before it. -/
def renderDelta (d : Delta) : String :=
  "delta" ++ toString d.index ++
    (if d.vars.isEmpty then "" else " [" ++ ", ".intercalate d.vars ++ "]") ++
    ": " ++ " ".intercalate (d.body.map (renderItem a c c.betas.size)) ++ "\n"

/-- The lines of all deltas. -/
def render : String :=
  String.join (c.deltas.toList.map (renderDelta a c))

end Control

end Rpal
