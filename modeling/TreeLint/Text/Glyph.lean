import TreeLint.Text.Blank
import TreeLint.Text.Word

/-!
# Source characters

A source is a sequence of bytes that should be UTF-8 but need not be. Read as text it is a list of glyphs: the
characters of its well-formed sequences, and one glyph for each byte that belongs to none.

* `decode` reads bytes as text and `encode` writes text as bytes; no byte is lost on the way;
* `Glyph.code` numbers the glyphs: a character has its code point, and a stray byte `b` has `0xDC00 + b`, a number that
  no character has;
* `Text.display` shows a text as a string, with a stray byte as its number in angle brackets.
-/

namespace TreeLint

/-- One character of a source: a decoded character, or a byte that is part of no well-formed sequence. -/
inductive Glyph where
  | scalar (c : Char)
  | stray (b : UInt8)
  deriving DecidableEq, Inhabited, Repr

/-- Characters and stray bytes are told apart before they are hashed. -/
instance : Hashable Glyph where
  hash
    | .scalar c => mixHash 0 (instHashableChar.hash c)
    | .stray b => mixHash 1 (hash b)

abbrev Text := List Glyph

namespace Glyph

def code : Glyph → Nat
  | scalar c => c.toNat
  | stray b => 0xDC00 + b.toNat

/-- The glyph with a given number; numbers of no glyph give the null character. -/
def ofCode (n : Nat) : Glyph :=
  if 0xDC80 ≤ n && n ≤ 0xDCFF then stray (UInt8.ofNat (n - 0xDC00)) else scalar (Char.ofNat n)

def isBlank (g : Glyph) : Bool :=
  TreeLint.isBlank g.code

def isWord (g : Glyph) : Bool :=
  TreeLint.isWord g.code

def is (g : Glyph) (c : Char) : Bool :=
  g == scalar c

def bytesOf (n : Nat) : List UInt8 :=
  if n < 0x80 then [UInt8.ofNat n]
  else if n < 0x800 then [UInt8.ofNat (0xC0 + n / 64), UInt8.ofNat (0x80 + n % 64)]
  else if n < 0x10000 then
    [UInt8.ofNat (0xE0 + n / 4096), UInt8.ofNat (0x80 + n / 64 % 64), UInt8.ofNat (0x80 + n % 64)]
  else
    [UInt8.ofNat (0xF0 + n / 262144), UInt8.ofNat (0x80 + n / 4096 % 64), UInt8.ofNat (0x80 + n / 64 % 64),
      UInt8.ofNat (0x80 + n % 64)]

def bytes : Glyph → List UInt8
  | scalar c => bytesOf c.toNat
  | stray b => [b]

def width (g : Glyph) : Nat :=
  g.bytes.length

end Glyph

def isTail (b : Nat) : Bool :=
  0x80 ≤ b && b ≤ 0xBF

/-- The code point of the well-formed sequence that starts with the byte `lead` and goes on in `rest`, together with
the number of bytes it takes from `rest`. -/
def sequenceAt (lead : Nat) (rest : List UInt8) : Option (Nat × Nat) :=
  let byte (i : Nat) : Nat := (rest[i]?.map UInt8.toNat).getD 0
  if lead < 0x80 then some (lead, 0)
  else if 0xC2 ≤ lead && lead ≤ 0xDF then
    if isTail (byte 0) then some ((lead - 0xC0) * 64 + (byte 0 - 0x80), 1) else none
  else if 0xE0 ≤ lead && lead ≤ 0xEF then
    let low := if lead == 0xE0 then 0xA0 else 0x80
    let high := if lead == 0xED then 0x9F else 0xBF
    if low ≤ byte 0 && byte 0 ≤ high && isTail (byte 1) then
      some ((lead - 0xE0) * 4096 + (byte 0 - 0x80) * 64 + (byte 1 - 0x80), 2)
    else none
  else if 0xF0 ≤ lead && lead ≤ 0xF4 then
    let low := if lead == 0xF0 then 0x90 else 0x80
    let high := if lead == 0xF4 then 0x8F else 0xBF
    if low ≤ byte 0 && byte 0 ≤ high && isTail (byte 1) && isTail (byte 2) then
      some ((lead - 0xF0) * 262144 + (byte 0 - 0x80) * 4096 + (byte 1 - 0x80) * 64 + (byte 2 - 0x80), 3)
    else none
  else none

def decode : List UInt8 → Text
  | [] => []
  | lead :: rest =>
    match sequenceAt lead.toNat rest with
    | some (code, taken) => .scalar (Char.ofNat code) :: decode (rest.drop taken)
    | none => .stray lead :: decode rest
termination_by bytes => bytes.length
decreasing_by
  · simp only [List.length_cons, List.length_drop]; omega
  · simp

def encode (text : Text) : List UInt8 :=
  text.flatMap Glyph.bytes

namespace Text

def ofString (s : String) : Text :=
  s.toList.map Glyph.scalar

def codes (text : Text) : List Nat :=
  text.map Glyph.code

def ofCodes (codes : List Nat) : Text :=
  codes.map Glyph.ofCode

def hex (width n : Nat) : String :=
  let digits := Nat.toDigits 16 n
  String.ofList (List.replicate (width - digits.length) '0' ++ digits)

def displayGlyph : Glyph → String
  | .scalar c => c.toString
  | .stray b => "<0x" ++ hex 2 b.toNat ++ ">"

def display (text : Text) : String :=
  String.join (text.map displayGlyph)

def trim (text : Text) : Text :=
  ((text.dropWhile Glyph.isBlank).reverse.dropWhile Glyph.isBlank).reverse

def allBlank (text : Text) : Bool :=
  text.all Glyph.isBlank

def startsWith (text part : Text) : Bool :=
  part.isPrefixOf text

def endsWith (text part : Text) : Bool :=
  part.isSuffixOf text

def hasPart (text part : Text) : Bool :=
  match text with
  | [] => part.isEmpty
  | _ :: rest => part.isPrefixOf text || hasPart rest part

def splitOn (sep : Char) : Text → List Text
  | [] => [[]]
  | g :: rest =>
    match splitOn sep rest with
    | [] => [[g]]
    | piece :: pieces => if g.is sep then [] :: piece :: pieces else (g :: piece) :: pieces

end Text

end TreeLint
