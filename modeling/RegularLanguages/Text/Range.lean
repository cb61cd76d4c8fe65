/-!
# Sets of characters given by ranges

A property of characters is written as an increasing list of closed ranges of code points.
-/

namespace RegularLanguages.Text

/-- Whether the code point of `c` lies in one of the closed ranges. -/
def inRanges (ranges : List (Nat × Nat)) (c : Char) : Bool :=
  ranges.any fun (low, high) => low ≤ c.toNat && c.toNat ≤ high

end RegularLanguages.Text
