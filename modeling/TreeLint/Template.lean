import TreeLint.Capture

/-!
# Message templates

A template is text with references to captures: `{name}` stands for the text of a capture and `{name.attribute}` for
one of its attributes; a `$` may stand before the name. A doubled brace stands for the brace itself, and a brace that
starts no reference stands for itself too.
-/

namespace TreeLint

def Binding.attributeText (tree : Tree) (binding : Binding) : Attribute → Text
  | .text => binding.text tree
  | .kind => Text.ofString (binding.kind tree)
  | .start => Text.ofString (toString (binding.start tree))
  | .stop => Text.ofString (toString (binding.stop tree))
  | .line => Text.ofString (toString (binding.line tree))
  | .column => Text.ofString (toString (binding.column tree))
  | .count => Text.ofString (toString binding.count)

namespace Template

inductive Piece where
  | plain (c : Char)
  | reference (name : String) (aspect : Option String)
  deriving DecidableEq, Inhabited, Repr

def startsName (c : Char) : Bool :=
  c.isAlpha || c == '_'

def inName (c : Char) : Bool :=
  c.isAlphanum || c == '_'

def withoutMark : List Char → List Char
  | '$' :: rest => rest
  | chars => chars

/-- The attribute that a reference goes on with, up to its closing brace, and the characters after that. -/
def aspectAt? (chars : List Char) : Option (Option String × List Char) :=
  match chars with
  | '}' :: rest => some (none, rest)
  | '.' :: rest =>
    match rest.takeWhile startsName, rest.dropWhile startsName with
    | first :: others, '}' :: rest => some (some (String.ofList (first :: others)), rest)
    | _, _ => none
  | _ => none

def referenceAt? (chars : List Char) : Option (String × Option String × List Char) := do
  let chars := withoutMark chars
  let name := chars.takeWhile inName
  if name.head?.any startsName then
    let (aspect, rest) ← aspectAt? (chars.dropWhile inName)
    return (String.ofList name, aspect, rest)
  else none

theorem length_dropWhile_le_length (test : Char → Bool) (chars : List Char) :
    (chars.dropWhile test).length ≤ chars.length :=
  (chars.dropWhile_suffix test).length_le

theorem length_of_aspectAt? {chars rest : List Char} {aspect : Option String}
    (h : aspectAt? chars = some (aspect, rest)) : rest.length < chars.length := by
  unfold aspectAt? at h
  split at h
  · simp only [Option.some.injEq, Prod.mk.injEq] at h
    simp [h.2]
  · rename_i others
    split at h
    · rename_i tail hdrop
      simp only [Option.some.injEq, Prod.mk.injEq] at h
      have := length_dropWhile_le_length startsName others
      rw [hdrop, List.length_cons, h.2] at this
      simp only [List.length_cons]
      omega
    · simp at h
  · simp at h

theorem length_of_referenceAt? {chars rest : List Char} {name : String} {aspect : Option String}
    (h : referenceAt? chars = some (name, aspect, rest)) : rest.length ≤ chars.length := by
  have hmark : (withoutMark chars).length ≤ chars.length := by
    unfold withoutMark
    split <;> simp
  have hname := length_dropWhile_le_length inName (withoutMark chars)
  unfold referenceAt? at h
  simp only at h
  split at h
  · obtain ⟨⟨found, left⟩, haspect, heq⟩ := Option.bind_eq_some_iff.1 h
    simp only [Option.pure_def, Option.some.injEq, Prod.mk.injEq] at heq
    have := length_of_aspectAt? haspect
    rw [heq.2.2] at this
    omega
  · simp at h

def pieces : List Char → List Piece
  | [] => []
  | '{' :: '{' :: rest => .plain '{' :: pieces rest
  | '}' :: '}' :: rest => .plain '}' :: pieces rest
  | c :: rest =>
    if c == '{' then
      match _h : referenceAt? rest with
      | some (name, aspect, rest) => .reference name aspect :: pieces rest
      | none => .plain c :: pieces rest
    else .plain c :: pieces rest
termination_by chars => chars.length
decreasing_by
  all_goals simp only [List.length_cons]
  all_goals first
    | omega
    | have := length_of_referenceAt? _h; omega

def references (template : String) : List (String × Option String) :=
  (pieces template.toList).filterMap fun
    | .plain _ => none
    | .reference name aspect => some (name, aspect)

/-- The numbers of the nodes of a capture, in parentheses. A single one has a comma after it. -/
def nodeNumbers (binding : Binding) : String :=
  match binding.ids with
  | [id] => "(" ++ toString id ++ ",)"
  | ids => "(" ++ ", ".intercalate (ids.map toString) ++ ")"

/-- What a reference may ask of a capture: one of its attributes, or where it comes from: the numbers of its nodes,
whether it is a run of siblings, and its tree. -/
def aspectText? (tree : Tree) (binding : Binding) (name : String) : Option Text :=
  match Attribute.ofName? name with
  | some aspect => some (binding.attributeText tree aspect)
  | none =>
    match name with
    | "ids" => some (Text.ofString (nodeNumbers binding))
    | "many" => some (Text.ofString (if binding.isRun then "True" else "False"))
    | "tree" => some (Text.ofString tree.summary)
    | _ => none

/-- A piece filled in; a name that is not bound stands for nothing. `none` when it asks for something unknown. -/
def Piece.render? (tree : Tree) (bindings : Bindings) : Piece → Option Text
  | plain c => some [.scalar c]
  | reference name aspect =>
    match bindings.get? name with
    | none => some []
    | some binding => aspectText? tree binding (aspect.getD Attribute.text.name)

def render? (tree : Tree) (bindings : Bindings) (template : String) : Option Text :=
  ((pieces template.toList).mapM (Piece.render? tree bindings)).map List.flatten

end Template

end TreeLint
