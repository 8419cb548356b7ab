import TreeLint.Regex.Basic

/-!
# Matching regular expressions

Matching searches with backtracking: of two alternatives the first that leads to a match of the whole is taken, and a
greedy repetition goes on as long as it can. An expression is matched at a position of a whole text, so anchors and
looking behind see what stands before the position.

Groups keep marks where they start and end. A part that fails may leave marks behind, and a group whose end is marked in
an earlier round of a repetition keeps it while its start is marked anew. What a choice puts back before it tries
something else depends on where it stands: inside a repeated sequence all marks are put back as they were, and elsewhere
only the marks of further groups are dropped.
-/

namespace TreeLint

namespace Regex

/-- Where groups start and end: the marks `2 * n - 2` and `2 * n - 1` belong to the group `n`. -/
abbrev Marks := Array (Option Nat)

def Marks.put (marks : Marks) (index position : Nat) : Marks :=
  if index < marks.size then marks.setIfInBounds index (some position)
  else (marks ++ Array.replicate (index - marks.size) none).push (some position)

/-- The marks after something failed and left `left` behind: all as they were inside a repetition, and elsewhere without
those of further groups. -/
def Marks.restore (marks : Marks) (inLoop : Bool) (left : Marks) : Marks :=
  if inLoop then marks else left.take marks.size

structure Cursor where
  position : Nat
  marks : Marks := #[]
  deriving Inhabited, Repr

def Cursor.group? (cursor : Cursor) (number : Nat) : Option (Nat × Nat) := do
  let start ← (cursor.marks[2 * number - 2]?).join
  let stop ← (cursor.marks[2 * number - 1]?).join
  if start ≤ stop then some (start, stop) else none

abbrev Attempt := Except Marks Cursor

def isWordAt (ascii : Bool) (subject : Array Glyph) (position : Nat) : Bool :=
  match subject[position]? with
  | some g => Category.word.holds ascii g.code
  | none => false

def isNewlineAt (subject : Array Glyph) (position : Nat) : Bool :=
  match subject[position]? with
  | some g => g.is '\n'
  | none => false

def Anchor.holds (anchor : Anchor) (subject : Array Glyph) (position : Nat) : Bool :=
  match anchor with
  | textStart => position == 0
  | lineStart => position == 0 || isNewlineAt subject (position - 1)
  | textEnd => position == subject.size
  | lastLineEnd => position == subject.size || (position + 1 == subject.size && isNewlineAt subject position)
  | lineEnd => position == subject.size || isNewlineAt subject position
  | wordEdge negated ascii =>
    let before := position != 0 && isWordAt ascii subject (position - 1)
    let after := isWordAt ascii subject position
    subject.size != 0 && ((before != after) != negated)

/-- Whether the characters from `position` on repeat those of the range `[start, stop)` under a folding. -/
def repeats (folding : Folding) (subject : Array Glyph) (start stop position : Nat) : Bool :=
  position + (stop - start) ≤ subject.size &&
    (List.range (stop - start)).all fun i =>
      folding.lower (subject.getD (start + i) default).code ==
        folding.lower (subject.getD (position + i) default).code

/-- How many characters from a position on are in a set, up to `most`. -/
def countIn (subject : Array Glyph) (chars : CharSet) (position : Nat) (most : Option Nat) : Nat :=
  let limit := match most with
    | some most => min most (subject.size - position)
    | none => subject.size - position
  go limit position
where
  go : Nat → Nat → Nat
  | 0, _ => 0
  | limit + 1, position =>
    match subject[position]? with
    | some g => if chars.holds g then go limit (position + 1) + 1 else 0
    | none => 0

/-- Goes on after `count` more characters, or after fewer of them where that fails. -/
def longestFirst (inLoop : Bool) (next : Cursor → Attempt) (cursor : Cursor) : Nat → Attempt
  | 0 => (next cursor).mapError (cursor.marks.restore inLoop)
  | count + 1 =>
    match next { cursor with position := cursor.position + (count + 1) } with
    | .ok found => .ok found
    | .error left => longestFirst inLoop next { cursor with marks := cursor.marks.restore inLoop left } count

/-- Goes on at once, or after one and more of `count` further characters where that fails. -/
def shortestFirst (inLoop : Bool) (next : Cursor → Attempt) (cursor : Cursor) : Nat → Attempt
  | 0 => (next cursor).mapError (cursor.marks.restore inLoop)
  | count + 1 =>
    match next cursor with
    | .ok found => .ok found
    | .error left =>
      shortestFirst inLoop next
        { position := cursor.position + 1, marks := cursor.marks.restore inLoop left } count

/-- Matches a character of a set between `least` and `most` times. -/
def runChars (subject : Array Glyph) (inLoop : Bool) (greed : Greed) (least : Nat) (most : Option Nat)
    (chars : CharSet) (cursor : Cursor) (next : Cursor → Attempt) : Attempt :=
  let count := countIn subject chars cursor.position most
  if count < least then .error cursor.marks
  else
    match greed with
    | .possessive => next { cursor with position := cursor.position + count }
    | .greedy => longestFirst inLoop next { cursor with position := cursor.position + least } (count - least)
    | .reluctant => shortestFirst inLoop next { cursor with position := cursor.position + least } (count - least)

mutual

/-- Matches a term from a cursor on and hands each way of doing so to `next`, until one succeeds; `inLoop` tells whether
the term stands inside a repeated sequence. -/
def run (subject : Array Glyph) (inLoop : Bool) (term : Term) (cursor : Cursor) (next : Cursor → Attempt) : Attempt :=
  match term with
  | .empty => next cursor
  | .set chars =>
    match subject[cursor.position]? with
    | some g =>
      if chars.holds g then next { cursor with position := cursor.position + 1 } else .error cursor.marks
    | none => .error cursor.marks
  | .anchor place => if place.holds subject cursor.position then next cursor else .error cursor.marks
  | .seq a b => run subject inLoop a cursor fun cursor => run subject inLoop b cursor next
  | .alt a b =>
    match run subject inLoop a cursor next with
    | .ok found => .ok found
    | .error left =>
      let marks := cursor.marks.restore inLoop left
      (run subject inLoop b { cursor with marks } next).mapError (marks.restore inLoop)
  | .times greed least most body =>
    match body with
    | .set chars => runChars subject inLoop greed least most chars cursor next
    | body =>
      match greed with
      | .possessive => runAtomic subject inLoop body least most cursor next
      | .greedy => runTimes subject inLoop true body least most cursor next
      | .reluctant => runTimes subject inLoop false body least most cursor next
  | .group number body =>
    run subject inLoop body { cursor with marks := cursor.marks.put (2 * number - 2) cursor.position } fun after =>
      next { after with marks := after.marks.put (2 * number - 1) after.position }
  | .atomic body =>
    match run subject inLoop body cursor .ok with
    | .ok found => next found
    | .error left => .error left
  | .ahead negated body =>
    match run subject inLoop body cursor .ok with
    | .ok found => if negated then .error found.marks else next { found with position := cursor.position }
    | .error left =>
      if negated then next { cursor with marks := cursor.marks.restore inLoop left } else .error left
  | .behind negated width body =>
    if cursor.position < width then (if negated then next cursor else .error cursor.marks)
    else
      match run subject inLoop body { cursor with position := cursor.position - width } .ok with
      | .ok found => if negated then .error found.marks else next { found with position := cursor.position }
      | .error left =>
        if negated then next { cursor with marks := cursor.marks.restore inLoop left } else .error left
  | .again number folding =>
    match cursor.group? number with
    | some (start, stop) =>
      if repeats folding subject start stop cursor.position then
        next { cursor with position := cursor.position + (stop - start) }
      else .error cursor.marks
    | none => .error cursor.marks
  | .ifGroup number yes no =>
    if (cursor.group? number).isSome then run subject inLoop yes cursor next else run subject inLoop no cursor next
termination_by (term.size, 0, 0, 0)

/-- Matches a term between `least` and `most` times. A round past the least number that takes nothing is the last. -/
def runTimes (subject : Array Glyph) (inLoop eager : Bool) (body : Term) (least : Nat) (most : Option Nat)
    (cursor : Cursor) (next : Cursor → Attempt) : Attempt :=
  match least with
  | least + 1 =>
    run subject true body cursor fun after => runTimes subject inLoop eager body least (most.map (· - 1)) after next
  | 0 =>
    if eager then
      if most == some 0 then next cursor
      else
        let another := run subject true body cursor fun after =>
          if _ : cursor.position < after.position ∧ after.position ≤ subject.size then
            runTimes subject inLoop eager body 0 (most.map (· - 1)) after next
          else next after
        match another with
        | .ok found => .ok found
        | .error _ => next cursor
    else
      match next cursor with
      | .ok found => .ok found
      | .error left =>
        let marks := cursor.marks.restore inLoop left
        if most == some 0 then .error marks
        else
          run subject true body { cursor with marks } fun after =>
            if _ : cursor.position < after.position ∧ after.position ≤ subject.size then
              runTimes subject inLoop eager body 0 (most.map (· - 1)) after next
            else (next after).mapError (after.marks.restore inLoop)
termination_by (body.size, 1, least, subject.size - cursor.position)

/-- Matches a term between `least` and `most` times, each round for good. -/
def runAtomic (subject : Array Glyph) (inLoop : Bool) (body : Term) (least : Nat) (most : Option Nat)
    (cursor : Cursor) (next : Cursor → Attempt) : Attempt :=
  match least with
  | least + 1 =>
    match run subject inLoop body cursor .ok with
    | .ok after => runAtomic subject inLoop body least (most.map (· - 1)) after next
    | .error left => .error left
  | 0 =>
    if most == some 0 then next cursor
    else
      match run subject inLoop body cursor .ok with
      | .ok after =>
        if _ : cursor.position < after.position ∧ after.position ≤ subject.size then
          runAtomic subject inLoop body 0 (most.map (· - 1)) after next
        else next after
      | .error _ => next cursor
termination_by (body.size, 1, least, subject.size - cursor.position)

end

def matchAt (regex : Regex) (subject : Array Glyph) (position : Nat) : Option Cursor :=
  (run subject false regex.term { position } .ok).toOption

def searchFrom (regex : Regex) (subject : Array Glyph) (position : Nat) : Option (Nat × Cursor) :=
  match regex.matchAt subject position with
  | some cursor => some (position, cursor)
  | none => if position < subject.size then regex.searchFrom subject (position + 1) else none
termination_by subject.size - position

def search (regex : Regex) (text : Text) : Option (Nat × Cursor) :=
  regex.searchFrom text.toArray 0

def isFoundIn (regex : Regex) (text : Text) : Bool :=
  (regex.search text).isSome

def groupText? (regex : Regex) (subject : Array Glyph) (cursor : Cursor) (name : String) : Option Text := do
  let number ← regex.groupNames.lookup name
  let (start, stop) ← cursor.group? number
  return (subject.extract start stop).toList

end Regex

end TreeLint
