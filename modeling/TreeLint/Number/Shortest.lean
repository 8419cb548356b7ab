import TreeLint.Number.Double

/-!
# Shortest decimal text of a double

A finite double is written with the fewest significant digits that read back as the same double; among those the
nearest, and of two equally near the one with an even last digit. Exponents from `-4` to `15` are written positionally
with at least one digit after the point, all others as `e` with a sign and at least two digits.
-/

namespace TreeLint

namespace Double

/-- The greatest `p` with `10 ^ p ≤ num / den`, searched downward from `start`. -/
def floorLog10From (num den : Nat) : Nat → Int → Int
  | 0, start => start
  | steps + 1, start =>
    let reached := if start < 0 then den ≤ num * Nat.pow 10 (-start).toNat else den * Nat.pow 10 start.toNat ≤ num
    if reached then start else floorLog10From num den steps (start - 1)

def floorLog10 (num den : Nat) : Int :=
  let start := Int.ofNat (digitCount num) - Int.ofNat (digitCount den) + 1
  floorLog10From num den 3 start

/-- The decimal with `count` significant digits nearest to `num / den` that reads back as `target`, as a pair of digits
and power of ten. -/
def nearestDecimal? (target : Double) (num den count : Nat) : Option (Nat × Int) :=
  let power := floorLog10 num den - Int.ofNat count + 1
  let (n, d) := if power < 0 then (num * Nat.pow 10 (-power).toNat, den) else (num, den * Nat.pow 10 power.toNat)
  let below := n / d
  let rest := n % d
  let readsBack (digits : Nat) : Bool := ofDecimal false digits power == target
  let aboveFirst := d < 2 * rest || (2 * rest == d && below % 2 == 1)
  let candidates := if aboveFirst then [below + 1, below] else [below, below + 1]
  (candidates.find? readsBack).map fun digits => (digits, power)

def shortestDecimal (mantissa : Nat) (exponent : Int) : Nat × Int :=
  match (finite false mantissa exponent).ratio? with
  | some (num, den) =>
    let found := (List.range 17).findSome? fun k =>
      nearestDecimal? (finite false mantissa exponent) num.toNat den (k + 1)
    found.getD (num.toNat, 0)
  | none => (0, 0)

/-- Digits without the zeros at their end; the power of ten grows accordingly. -/
def dropZeros : Nat → Nat × Int → Nat × Int
  | 0, decimal => decimal
  | steps + 1, (digits, power) =>
    if digits != 0 && digits % 10 == 0 then dropZeros steps (digits / 10, power + 1) else (digits, power)

def decimalText (digits : Nat) (power : Int) : String :=
  let shown := Nat.toDigits 10 digits
  let exponent := power + Int.ofNat shown.length - 1
  if exponent < -4 || 16 ≤ exponent then
    let fraction := if shown.length ≤ 1 then [] else '.' :: shown.drop 1
    let sign := if exponent < 0 then '-' else '+'
    let size := Nat.toDigits 10 exponent.natAbs
    let size := if size.length < 2 then '0' :: size else size
    String.ofList (shown.take 1 ++ fraction ++ 'e' :: sign :: size)
  else if exponent < 0 then
    String.ofList ('0' :: '.' :: List.replicate (exponent.natAbs - 1) '0' ++ shown)
  else
    let whole := exponent.toNat + 1
    if shown.length ≤ whole then
      String.ofList (shown ++ List.replicate (whole - shown.length) '0' ++ ['.', '0'])
    else String.ofList (shown.take whole ++ '.' :: shown.drop whole)

def text : Double → String
  | nan => "nan"
  | infinite negative => if negative then "-inf" else "inf"
  | finite negative m e =>
    let body := if m == 0 then "0.0" else
      let (digits, power) := dropZeros 20 (shortestDecimal m e)
      decimalText digits power
    if negative then "-" ++ body else body

end Double

end TreeLint
