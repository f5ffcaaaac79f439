import Rpal.Arena.Basic

/-!
# Printed trees

A tree is printed on one line, as nested applications of constructs to operands (`Tree.render`), or
with one line per node and a dot for every level of depth (`Tree.outline`, and `Arena.outline` for the
tree of an arena).
-/

namespace Rpal

namespace Tree

mutual

/-- The tree on one line. -/
def render : Tree Label → String
  | node l [] => l.render
  | node l (t :: ts) => l.render ++ "(" ++ t.render ++ renderMore ts ++ ")"

/-- The operands after the first, each behind a comma. -/
def renderMore : List (Tree Label) → String
  | [] => ""
  | t :: ts => ", " ++ t.render ++ renderMore ts

end

mutual

/-- The lines of the nodes, each behind `depth` dots and one more for every level. -/
def outlineAt (depth : Nat) : Tree Label → String
  | node l ts =>
    String.ofList (List.replicate depth '.') ++ l.render ++ "\n" ++ outlineAllAt (depth + 1) ts

/-- `outlineAt` on a list of trees. -/
def outlineAllAt (depth : Nat) : List (Tree Label) → String
  | [] => ""
  | t :: ts => t.outlineAt depth ++ outlineAllAt depth ts

end

/-- The tree with one line per node. -/
def outline (t : Tree Label) : String :=
  t.outlineAt 0

end Tree

/-- The tree of an arena with one line per node, or nothing if the arena has no root. -/
def Arena.outline (a : Arena) : String :=
  (a.rootTree?.map Tree.outline).getD ""

end Rpal
