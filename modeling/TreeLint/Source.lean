import TreeLint.Index
import TreeLint.Text.Glyph

/-!
# Sources

A source is seen both as text and as UTF-8 bytes. Offsets count bytes, columns count characters, and lines end at
newline characters.

* `Source.byteOffset?` and `Source.charOffset` convert between positions in the text and in the bytes;
* `Source.lineColumn` gives the line and column of a byte offset, both counted from one;
* `Source.lineSpan?` gives the bytes of a line;
* `Source.slice` reads a range of bytes as text.

In a source of single-byte characters the two kinds of position are one, and numbers outside the source are kept as they
are.
-/

namespace TreeLint

def offsetsFrom (start : Nat) : Text → List Nat
  | [] => []
  | g :: rest => (start + g.width) :: offsetsFrom (start + g.width) rest

def lineStartsFrom (start : Nat) : Text → List Nat
  | [] => []
  | g :: rest =>
    let next := start + g.width
    if g.is '\n' then next :: lineStartsFrom next rest else lineStartsFrom next rest

structure Source where
  bytes : List UInt8
  text : Text
  glyphs : Array Glyph
  offsets : Array Nat
  lineStarts : Array Nat
  deriving Inhabited

namespace Source

def ofParts (bytes : List UInt8) (text : Text) : Source :=
  { bytes, text, glyphs := text.toArray, offsets := (0 :: offsetsFrom 0 text).toArray,
    lineStarts := (0 :: lineStartsFrom 0 text).toArray }

def ofBytes (bytes : List UInt8) : Source :=
  ofParts bytes (decode bytes)

def ofText (text : Text) : Source :=
  ofParts (encode text) text

def size (source : Source) : Nat :=
  source.bytes.length

def length (source : Source) : Nat :=
  source.glyphs.size

def isPlain (source : Source) : Bool :=
  source.size == source.length

def byteAt (source : Source) (position : Nat) : Nat :=
  source.offsets.getD position source.size

def byteOffset? (source : Source) (position : Int) : Option Int :=
  if source.isPlain then some position
  else (resolveIndex? source.offsets.size position).map fun i => Int.ofNat (source.offsets.getD i 0)

/-- How many entries of an increasing table are at most `limit`. -/
def countUpTo (table : Array Nat) (limit : Int) : Nat :=
  table.countP fun entry => Int.ofNat entry ≤ limit

/-- The position in the text of the character that a byte offset falls into. -/
def charOffset (source : Source) (offset : Int) : Int :=
  if source.isPlain then offset else Int.ofNat (countUpTo source.offsets offset) - 1

def lineColumn (source : Source) (offset : Int) : Int × Int :=
  let line := Int.ofNat (countUpTo source.lineStarts offset) - 1
  let start := match resolveIndex? source.lineStarts.size line with
    | some i => source.lineStarts.getD i 0
    | none => 0
  (line + 1, source.charOffset offset - source.charOffset start + 1)

def lineSpan? (source : Source) (line : Int) : Option (Int × Int) := do
  let starts := source.lineStarts
  let i ← resolveIndex? starts.size (line - 1)
  let stop ← if line < starts.size then
      (resolveIndex? starts.size line).map fun j => Int.ofNat (starts.getD j 0) - 1
    else some (Int.ofNat source.size)
  return (Int.ofNat (starts.getD i 0), stop)

def slice (source : Source) (start stop : Int) : Text :=
  let first := resolveCut source.size start
  let last := resolveCut source.size stop
  decode ((source.bytes.drop first).take (last - first))

end Source

end TreeLint
