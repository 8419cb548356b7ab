import TreeLint.Span

/-!
# Readers with ordered choice

A reader takes characters from a text, or fails. Of two readers joined by choice the second is tried only where the
first fails. A reader may be a rule of a grammar: where a rule fails, the place at which it was tried is remembered,
and the furthest such place tells where a text stops making sense.

An optional part, or one more repetition, is not tried at the end of the text.
-/

namespace TreeLint

/-- What is left of a text, and how many characters came before. -/
structure Place where
  rest : List Char
  position : Nat
  deriving DecidableEq, Inhabited, Repr

/-- What came of a reader: a value with the place after it unless it failed, and the furthest failure of a rule. -/
structure Attempt (α : Type) where
  found : Option (α × Place)
  furthest : Nat := 0

def Reading (α : Type) : Type :=
  Place → Attempt α

namespace Reading

protected def pure (value : α) : Reading α :=
  fun place => { found := some (value, place) }

protected def bind (first : Reading α) (next : α → Reading β) : Reading β :=
  fun place =>
    let attempt := first place
    match attempt.found with
    | none => { found := none, furthest := attempt.furthest }
    | some (value, after) =>
      let second := next value after
      { second with furthest := max attempt.furthest second.furthest }

instance : Monad Reading where
  pure := Reading.pure
  bind := Reading.bind

def fail : Reading α :=
  fun _ => { found := none }

def either (first second : Reading α) : Reading α :=
  fun place =>
    let attempt := first place
    match attempt.found with
    | some _ => attempt
    | none =>
      let other := second place
      { other with furthest := max attempt.furthest other.furthest }

def firstOf (readers : List (Reading α)) : Reading α :=
  readers.foldr either fail

def rule (reader : Reading α) : Reading α :=
  fun place =>
    let attempt := reader place
    match attempt.found with
    | some _ => attempt
    | none => { attempt with furthest := max attempt.furthest place.position }

def optional (reader : Reading α) : Reading (Option α) :=
  fun place =>
    if place.rest.isEmpty then { found := some (none, place) }
    else
      let attempt := reader place
      match attempt.found with
      | some (value, after) => { found := some (some value, after), furthest := attempt.furthest }
      | none => { found := some (none, place), furthest := attempt.furthest }

/-- A reader repeated as often as it goes, at most so many times. -/
def upTo (reader : Reading α) : Nat → Reading (List α)
  | 0 => pure []
  | count + 1 => do
    match ← optional reader with
    | none => return []
    | some value => return value :: (← upTo reader count)

/-- A reader repeated as often as it goes. The reader must take something each time. -/
def many (reader : Reading α) : Reading (List α) :=
  fun place => upTo reader place.rest.length place

def here : Reading Nat :=
  fun place => { found := some (place.position, place) }

/-- Takes the first characters if they satisfy a condition, as many as that says. -/
def takeFirst (length : List Char → Option Nat) : Reading (List Char) :=
  fun place =>
    match length place.rest with
    | some count =>
      { found := some (place.rest.take count, { rest := place.rest.drop count, position := place.position + count }) }
    | none => { found := none }

def literal (text : String) : Reading Unit := do
  let _ ← takeFirst fun rest => if text.toList.isPrefixOf rest then some text.length else none

def takeWhile (isMember : Char → Bool) : Reading (List Char) :=
  takeFirst fun rest => some (rest.takeWhile isMember).length

def withText (reader : Reading α) : Reading (α × List Char) :=
  fun place =>
    let attempt := reader place
    { found := attempt.found.map fun (value, after) =>
        ((value, place.rest.take (after.position - place.position)), after)
      furthest := attempt.furthest }

def separated (item : Reading α) (separator : Reading Unit) : Reading (List α) := do
  let first ← item
  let others ← many do
    separator
    item
  return first :: others

/-- Reads a whole text. A failure tells where the text stops making sense. -/
def whole (reader : Reading α) (text : List Char) : Except Nat α :=
  let attempt := reader { rest := text, position := 0 }
  match attempt.found with
  | none => .error attempt.furthest
  | some (value, after) => if after.rest.isEmpty then .ok value else .error after.position

end Reading

def lineOf (text : List Char) (position : Nat) : Nat :=
  (text.take position).count '\n' + 1

def columnOf (text : List Char) (position : Nat) : Nat :=
  ((text.take position).reverse.takeWhile (· != '\n')).length + 1

def spanOfCharacter (text : List Char) (position : Nat) : Span :=
  Span.between position (position + 1) (lineOf text position) (columnOf text position)

end TreeLint
