import TreeLint.Number.Shortest

/-!
# Numbers

A number is an integer of any size or a double. The two kinds compare by their exact values.
-/

namespace TreeLint

inductive Number where
  | int (value : Int)
  | double (value : Double)
  deriving DecidableEq, Inhabited, Repr

/-- Integers of more digits are neither read nor written. -/
def maxIntDigits : Nat := 4300

namespace Number

def text : Number → String
  | int value => toString value
  | double value => value.text

def isNaN : Number → Bool
  | double .nan => true
  | _ => false

def isWritable : Number → Bool
  | int value => (Nat.toDigits 10 value.natAbs).length ≤ maxIntDigits
  | double _ => true

inductive Place where
  | nowhere
  | bottom
  | top
  | at (num : Int) (den : Nat)

def place : Number → Place
  | int value => .at value 1
  | double value =>
    match value with
    | .nan => .nowhere
    | .infinite negative => if negative then .bottom else .top
    | .finite negative m e =>
      match (Double.finite negative m e).ratio? with
      | some (num, den) => .at num den
      | none => .nowhere

def compare? (a b : Number) : Option Ordering :=
  match a.place, b.place with
  | .nowhere, _ => none
  | _, .nowhere => none
  | .bottom, .bottom => some .eq
  | .bottom, _ => some .lt
  | _, .bottom => some .gt
  | .top, .top => some .eq
  | .top, _ => some .gt
  | _, .top => some .lt
  | .at n d, .at n' d' => some (compare (n * d') (n' * d))

def equals (a b : Number) : Bool :=
  compare? a b == some .eq

end Number

end TreeLint
