import TreeLint.Text.Glyph

/-!
# Globs

A glob stands for a set of names: `*` stands for any characters, `?` for any one, and `[...]` for one of a class. Any
other character stands for itself, and so does a `[` that is never closed.

A class lists characters and ranges such as `a-z`, and a `!` at its front negates it. A `]` at the front belongs to the
class. A hyphen makes a range only between two characters of which the first is not the end of another range. A range
whose ends are in the wrong order is left out together with its ends, before the front of the class is looked at.
-/

namespace TreeLint

namespace Glob

/-- A sign in a class: a character, or the hyphen of a range. -/
inductive Sign where
  | code (n : Nat)
  | hyphen
  deriving DecidableEq, Repr

inductive Piece where
  | many
  | one
  | code (n : Nat)
  /-- One character in one of the ranges, or in none of them if `negated`. -/
  | oneOf (negated : Bool) (ranges : List (Nat × Nat))
  deriving DecidableEq, Repr

abbrev codeOf (c : Char) : Nat := c.toNat

/-- The characters of a class up to the bracket that closes it, and those after the bracket. -/
def closeClass : List Nat → Option (List Nat × List Nat)
  | [] => none
  | n :: rest =>
    if n == codeOf ']' then some ([], rest) else (closeClass rest).map fun (body, rest) => (n :: body, rest)

def closeAfterFirst : List Nat → Option (List Nat × List Nat)
  | [] => none
  | n :: rest =>
    if n == codeOf ']' then (closeClass rest).map fun (body, rest) => (n :: body, rest) else closeClass (n :: rest)

def classAt? : List Nat → Option (List Nat × List Nat)
  | [] => none
  | n :: rest =>
    if n == codeOf '!' then (closeAfterFirst rest).map fun (body, rest) => (n :: body, rest)
    else closeAfterFirst (n :: rest)

/-- The stretches of a class between the hyphens that make ranges, of which the first `wait` characters hold none.
After a hyphen, the next two characters hold none. -/
def stretches (wait : Nat) : List Nat → List (List Nat)
  | [] => [[]]
  | n :: rest =>
    if wait == 0 && n == codeOf '-' then [] :: stretches 2 rest
    else
      match stretches (wait - 1) rest with
      | [] => [[n]]
      | stretch :: others => (n :: stretch) :: others

/-- Stretches of which the last, if it is empty, becomes a hyphen at the end of the one before. -/
def closeStretches : List (List Nat) → List (List Nat)
  | [stretch, []] => [stretch ++ [codeOf '-']]
  | stretch :: others => stretch :: closeStretches others
  | [] => []

def isReversed (left right : List Nat) : Bool :=
  match left.getLast?, right.head? with
  | some low, some high => high < low
  | _, _ => false

/-- Stretches without the ranges whose ends are in the wrong order, from the last on. -/
def dropReversed : List (List Nat) → List (List Nat)
  | [] => []
  | stretch :: others =>
    match dropReversed others with
    | [] => [stretch]
    | next :: later =>
      if isReversed stretch next then (stretch.dropLast ++ next.tail) :: later else stretch :: next :: later

def signsOf : List (List Nat) → List Sign
  | [] => []
  | [stretch] => stretch.map .code
  | stretch :: others => stretch.map .code ++ .hyphen :: signsOf others

def classSigns (body : List Nat) : List Sign :=
  let wait := if body.head? == some (codeOf '!') then 2 else 1
  signsOf (dropReversed (closeStretches (stretches wait body)))

def ranges : List Sign → List (Nat × Nat)
  | [] => []
  | .code low :: .hyphen :: .code high :: rest => (low, high) :: ranges rest
  | .code n :: rest => (n, n) :: ranges rest
  | .hyphen :: rest => (codeOf '-', codeOf '-') :: ranges rest

def classPiece (body : List Nat) : Piece :=
  match classSigns body with
  | [] => .oneOf false []
  | first :: rest =>
    if first = .code (codeOf '!') then .oneOf true (ranges rest) else .oneOf false (ranges (first :: rest))

theorem length_of_closeClass {codes body rest : List Nat} (h : closeClass codes = some (body, rest)) :
    rest.length < codes.length := by
  induction codes generalizing body with
  | nil => simp [closeClass] at h
  | cons n codes ih =>
    unfold closeClass at h
    split at h
    · simp only [Option.some.injEq, Prod.mk.injEq] at h
      simp [h.2]
    · obtain ⟨⟨inner, left⟩, hinner, heq⟩ := Option.map_eq_some_iff.1 h
      simp only [Prod.mk.injEq] at heq
      have := ih (heq.2 ▸ hinner)
      simp only [List.length_cons]
      omega

theorem length_of_closeAfterFirst {codes body rest : List Nat} (h : closeAfterFirst codes = some (body, rest)) :
    rest.length < codes.length := by
  cases codes with
  | nil => simp [closeAfterFirst] at h
  | cons n codes =>
    simp only [closeAfterFirst] at h
    split at h
    · obtain ⟨⟨inner, left⟩, hinner, heq⟩ := Option.map_eq_some_iff.1 h
      simp only [Prod.mk.injEq] at heq
      have := length_of_closeClass (heq.2 ▸ hinner)
      simp only [List.length_cons]
      omega
    · exact length_of_closeClass h

theorem length_of_classAt? {codes body rest : List Nat} (h : classAt? codes = some (body, rest)) :
    rest.length < codes.length := by
  cases codes with
  | nil => simp [classAt?] at h
  | cons n codes =>
    simp only [classAt?] at h
    split at h
    · obtain ⟨⟨inner, left⟩, hinner, heq⟩ := Option.map_eq_some_iff.1 h
      simp only [Prod.mk.injEq] at heq
      have := length_of_closeAfterFirst (heq.2 ▸ hinner)
      simp only [List.length_cons]
      omega
    · exact length_of_closeAfterFirst h

def pieces : List Nat → List Piece
  | [] => []
  | n :: rest =>
    if n == codeOf '*' then .many :: pieces rest
    else if n == codeOf '?' then .one :: pieces rest
    else if n == codeOf '[' then
      match _h : classAt? rest with
      | some (body, rest) => classPiece body :: pieces rest
      | none => .code n :: pieces rest
    else .code n :: pieces rest
termination_by codes => codes.length
decreasing_by
  all_goals simp only [List.length_cons]
  all_goals first
    | omega
    | have := length_of_classAt? _h; omega

def Piece.accepts (n : Nat) : Piece → Bool
  | many => false
  | one => true
  | code m => n == m
  | oneOf negated ranges => (ranges.any fun (low, high) => low ≤ n && n ≤ high) != negated

/-- For each ending of a name, whether it or a shorter one is marked. -/
def orLater : List Bool → List Bool
  | [] => []
  | mark :: marks =>
    let later := orLater marks
    (mark || later.headD false) :: later

/-- For each ending of a name, whether its first character is one that the piece stands for and what follows it is
marked. -/
def stepOver (piece : Piece) : List Nat → List Bool → List Bool
  | n :: name, _ :: marks => (piece.accepts n && marks.headD false) :: stepOver piece name marks
  | _, _ => [false]

/-- For each ending of a name, the whole name first and nothing last, whether the pieces stand for it. -/
def endings (name : List Nat) : List Piece → List Bool
  | [] => name.map (fun _ => false) ++ [true]
  | .many :: rest => orLater (endings name rest)
  | piece :: rest => stepOver piece name (endings name rest)

def accepts (pieces : List Piece) (name : List Nat) : Bool :=
  (endings name pieces).headD false

def isMatch (glob : Text) (name : String) : Bool :=
  accepts (pieces glob.codes) (Text.ofString name).codes

end Glob

end TreeLint
