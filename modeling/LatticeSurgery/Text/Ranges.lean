/-!
# Ranges of characters

A property of characters is given as a list of ranges of code points, in increasing order.
-/

namespace LatticeSurgery

namespace Text

/-- Whether a character lies in one of the ranges. -/
def inRanges (ranges : List (Nat × Nat)) (c : Char) : Bool :=
  ranges.any fun r => decide (r.1 ≤ c.toNat) && decide (c.toNat ≤ r.2)

end Text

end LatticeSurgery
