/-!
# What ends a computation early

Reading and checking end early for a fault, which has a kind of its own at each place and can be reported. They may also
break down: a limit is passed of which no report is made, so that all that is going on ends with it.
-/

namespace TreeLint

inductive Breakdown where
  /-- A repetition counts further than can be counted. -/
  | repeatCount
  /-- A count has more digits than are read. -/
  | digitCount (digits : Nat)
  /-- An integer has more digits than are written. -/
  | longInteger
  /-- An expression asks for two alphabets at once. -/
  | alphabets
  /-- A look behind reaches further back than can be reached. -/
  | lookBehind
  /-- The digits of a number in a predicate cannot be read. -/
  | number
  deriving DecidableEq, Repr

/-- What is said about a breakdown, for those of which something is. -/
def Breakdown.message? : Breakdown → Option String
  | digitCount digits =>
    some ("Exceeds the limit (4300 digits) for integer string conversion: value has " ++ toString digits ++
      " digits; use sys.set_int_max_str_digits() to increase the limit")
  | longInteger =>
    some ("Exceeds the limit (4300 digits) for integer string conversion; use " ++
      "sys.set_int_max_str_digits() to increase the limit")
  | alphabets => some "ASCII and UNICODE flags are incompatible"
  | repeatCount | lookBehind | number => none

inductive Stop (ε : Type) where
  | fault (fault : ε)
  | breakdown (breakdown : Breakdown)
  deriving DecidableEq, Repr

/-- The same with the fault seen as a fault of another kind. -/
def Stop.map (f : ε → δ) : Stop ε → Stop δ
  | fault e => fault (f e)
  | breakdown b => breakdown b

/-- What can only fail may stand where something may break down as well. -/
instance : MonadLift (Except ε) (Except (Stop ε)) where
  monadLift outcome := outcome.mapError .fault

end TreeLint
