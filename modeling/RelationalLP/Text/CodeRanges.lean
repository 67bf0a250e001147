/-! # Ranges of characters

Sets of characters given by the ranges of their codes. -/

namespace RelationalLP

/-- Ranges of codes with both ends, in ascending order. -/
abbrev CodeRanges := List (Nat × Nat)

/-- Whether the code of a character lies in one of the ranges. -/
def CodeRanges.contains (ranges : CodeRanges) (c : Char) : Bool :=
  ranges.any fun (first, last) => first ≤ c.toNat && c.toNat ≤ last

end RelationalLP
