/-!
# Classes of code points

A class of code points is given by its ranges: a list of pairs `(lo, hi)`, both ends included, in
increasing order. Properties of characters that no short rule describes are tables of this form.

A long table is written by its steps: how far each range begins after the end of the one before, and how far it goes on
from there. The steps are packed into rows of hexadecimal digits, which `unpack` reads.
-/

namespace TreeLint

def inRanges (ranges : List (Nat × Nat)) (code : Nat) : Bool :=
  ranges.any fun (lo, hi) => lo ≤ code && code ≤ hi

def rangesFrom (code : Nat) : List Nat → List (Nat × Nat)
  | gap :: more :: steps => (code + gap, code + gap + more) :: rangesFrom (code + gap + more) steps
  | _ => []

/-- The numbers in the next digits of a row, the lowest digit first, when a number has begun with `value`. A digit adds
three bits to its number, and its highest bit is set where the number goes on; a last digit 1 closes the row. -/
def unpackFrom (value row : Nat) : Nat → List Nat
  | 0 => []
  | digits + 1 =>
    if row ≤ 1 then []
    else
      let value := 8 * value + row % 8
      if row % 16 < 8 then value :: unpackFrom 0 (row / 16) digits else unpackFrom value (row / 16) digits

def unpack (rows : List Nat) : List Nat :=
  rows.flatMap fun row => unpackFrom 0 row 128

example : unpack [0x11A05, 0x124F] = [5, 0, 17, 60, 2] := by decide

end TreeLint
