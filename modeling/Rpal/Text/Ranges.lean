/-!
# Sets of characters given by ranges

The character properties of the Unicode standard are published as tables of code point ranges.
`inRanges` decides membership in such a table.
-/

namespace Rpal.Text

/-- The code point of `c` lies in one of `ranges`, each given by its first and its last member. -/
def inRanges (ranges : List (Nat × Nat)) (c : Char) : Bool :=
  ranges.any fun range => range.1 ≤ c.toNat && c.toNat ≤ range.2

/-- A character is in some ranges if it is within the bounds of one. -/
theorem inRanges_eq_true_iff {ranges : List (Nat × Nat)} {c : Char} :
    inRanges ranges c = true ↔ ∃ range ∈ ranges, range.1 ≤ c.toNat ∧ c.toNat ≤ range.2 := by
  simp [inRanges, List.any_eq_true]

end Rpal.Text
