/-!
# Positions counted from either end

A position in a sequence may be given by its distance from the end, as a negative number: `-1` is the last place.
-/

namespace TreeLint

/-- The place that a position names in a sequence of `size` entries, if it is one of them. -/
def resolveIndex? (size : Nat) (position : Int) : Option Nat :=
  let place := if position < 0 then position + size else position
  if 0 ≤ place && place < size then some place.toNat else none

/-- The cut that a position names in a sequence of `size` entries; cuts beyond an end are moved to it. -/
def resolveCut (size : Nat) (position : Int) : Nat :=
  let cut := if position < 0 then position + size else position
  min cut.toNat size

end TreeLint
