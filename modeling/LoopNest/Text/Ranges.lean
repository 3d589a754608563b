/-! # Sets of characters given by ranges

A property of characters that a standard lists code point by code point is kept as the list of its
maximal ranges, and membership looks for the range that holds the character.
-/

namespace LoopNest.Text

/-- Ranges of code points, both ends included. -/
abbrev Ranges := List (Nat × Nat)

/-- A character belongs to ranges when its code point lies in one of them. -/
def Ranges.contains (ranges : Ranges) (c : Char) : Bool :=
  ranges.any fun r => r.1 ≤ c.toNat && c.toNat ≤ r.2

theorem Ranges.contains_iff {ranges : Ranges} {c : Char} :
    ranges.contains c = true ↔ ∃ r ∈ ranges, r.1 ≤ c.toNat ∧ c.toNat ≤ r.2 := by
  simp [Ranges.contains]

end LoopNest.Text
