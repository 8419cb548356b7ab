import TreeLint.Text.CodeClass

/-!
# Blank code points

The blanks are the white space of Unicode together with the four separators `U+001C` to `U+001F`.
-/

namespace TreeLint

def blankRanges : List (Nat × Nat) :=
  [(9, 13), (28, 32), (133, 133), (160, 160), (5760, 5760), (8192, 8202), (8232, 8233), (8239, 8239),
   (8287, 8287), (12288, 12288)]

def isBlank (code : Nat) : Bool :=
  inRanges blankRanges code

end TreeLint
