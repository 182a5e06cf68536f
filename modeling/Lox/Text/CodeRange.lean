/-!
# Sets of characters given by ranges of code points
-/

namespace Lox.Text

/-- The code points from `first` to `last`, both included. -/
structure CodeRange where
  first : Nat
  last : Nat
  deriving DecidableEq, Repr

/-- Whether a code point lies in the range. -/
def CodeRange.contains (r : CodeRange) (code : Nat) : Bool :=
  decide (r.first ≤ code) && decide (code ≤ r.last)

/-- Whether a character lies in one of the ranges. -/
def inRanges (ranges : List CodeRange) (c : Char) : Bool :=
  ranges.any (·.contains c.toNat)

/-- A character is in a set if its code point is between the ends of one of the ranges. -/
theorem inRanges_iff {ranges : List CodeRange} {c : Char} :
    inRanges ranges c = true ↔ ∃ r ∈ ranges, r.first ≤ c.toNat ∧ c.toNat ≤ r.last := by
  simp [inRanges, CodeRange.contains, List.any_eq_true]

end Lox.Text
