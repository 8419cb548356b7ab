import TreeLint.Number.Basic
import TreeLint.Text.Blank
import TreeLint.Text.Word

/-!
# Numbers in words

A word is an integer if, blanks at its ends and single underscores between digits left aside, it is a run of decimal
digits of any script with an optional sign; it is a double if it is written with a point, an exponent, or as one of the
words `inf`, `infinity` and `nan`. Integers of more than `4300` digits are not read as such.
-/

namespace TreeLint

/-- The character with its digits in ASCII and its blanks as spaces, or `none` where no number can hold it. -/
def plainDigit? (c : Char) : Option Char :=
  if c.toNat < 128 then some c
  else if isBlank c.toNat then some ' '
  else (decimalValue? c.toNat).map fun d => Char.ofNat (48 + d)

def isMargin (c : Char) : Bool :=
  c == ' ' || (9 ≤ c.toNat && c.toNat ≤ 13)

def plainWord? (word : List Char) : Option (List Char) :=
  (word.mapM plainDigit?).map fun cs => ((cs.dropWhile isMargin).reverse.dropWhile isMargin).reverse

/-- A word without its underscores, if each of them stands between two digits. -/
def joinDigits? (afterDigit : Bool) : List Char → Option (List Char)
  | [] => some []
  | '_' :: rest =>
    match rest with
    | next :: _ => if afterDigit && next.isDigit then joinDigits? false rest else none
    | [] => none
  | c :: rest => (joinDigits? c.isDigit rest).map (c :: ·)

def digitsValue (digits : List Char) : Nat :=
  digits.foldl (fun n c => 10 * n + (c.toNat - 48)) 0

def splitSign : List Char → Bool × List Char
  | '-' :: rest => (true, rest)
  | '+' :: rest => (false, rest)
  | word => (false, word)

def readInt? (word : List Char) : Option Int := do
  let plain ← plainWord? word
  let (negative, body) := splitSign plain
  let digits ← joinDigits? false body
  if digits.isEmpty || !digits.all Char.isDigit || maxIntDigits < digits.length then none
  else
    let value := Int.ofNat (digitsValue digits)
    return if negative then -value else value

def readExponent? : List Char → Option Int
  | [] => some 0
  | c :: rest =>
    if c == 'e' || c == 'E' then
      let (negative, digits) := splitSign rest
      if digits.isEmpty || !digits.all Char.isDigit then none
      else
        let value := Int.ofNat (digitsValue digits)
        some (if negative then -value else value)
    else none

def readDouble? (word : List Char) : Option Double := do
  let plain ← plainWord? word
  let joined ← joinDigits? false plain
  let (negative, body) := splitSign joined
  let lowered := body.map Char.toLower
  if lowered == "inf".toList || lowered == "infinity".toList then return .infinite negative
  else if lowered == "nan".toList then return .nan
  else
    let whole := body.takeWhile Char.isDigit
    let rest := body.dropWhile Char.isDigit
    let (fraction, rest) := match rest with
      | '.' :: rest => (rest.takeWhile Char.isDigit, rest.dropWhile Char.isDigit)
      | _ => ([], rest)
    if whole.isEmpty && fraction.isEmpty then none
    else
      let exponent ← readExponent? rest
      return .ofDecimal negative (digitsValue (whole ++ fraction)) (exponent - Int.ofNat fraction.length)

def Number.ofWord? (word : List Char) : Option Number :=
  match readInt? word with
  | some value => some (.int value)
  | none => (readDouble? word).map .double

end TreeLint
