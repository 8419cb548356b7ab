import TreeLint.Pattern.Basic

/-!
# Reading patterns

The grammar of patterns as text, from the loosest to the tightest binding:

* at the top only, siblings in brackets with an optional guard;
* `a | b`, then `a where predicate`;
* `!a`, `>> a` and `name: a`;
* a group in parentheses, `...`, `_`, `$name`, a string, a regular expression between slashes, or a kind with an
  optional list of children.
-/

namespace TreeLint

namespace Pattern

open Reading
open Predicate (Checked blanks keyword checkAll name quotedLength?)

def inKindName (c : Char) : Bool :=
  Predicate.inName c || c == '-'

def kindNameLength? : List Char → Option Nat
  | c :: rest => if Predicate.startsName c then some ((rest.takeWhile inKindName).length + 1) else none
  | [] => none

def kindName : Reading String :=
  rule do return String.ofList (← takeFirst kindNameLength?)

def wildcardLength? : List Char → Option Nat
  | '_' :: rest => if (rest.head?.any inKindName) then none else some 1
  | _ => none

def metavarLength? : List Char → Option Nat
  | '$' :: rest => (Predicate.nameLength? rest).map (· + 1)
  | _ => none

/-- The length of an expression up to and with the closing slash; a backslash joins the character after it. -/
def slashedLength? : List Char → Option Nat
  | [] => none
  | c :: rest =>
    if c == '/' then some 1
    else if c == '\n' then none
    else if c == '\\' then
      match rest with
      | escaped :: rest => if escaped == '\n' then none else (slashedLength? rest).map (· + 2)
      | [] => none
    else (slashedLength? rest).map (· + 1)

def regexLength? : List Char → Option Nat
  | '/' :: rest => if rest.head? == some '/' then none else (slashedLength? rest).map (· + 1)
  | _ => none

/-- The characters of an expression between slashes, in which a slash may stand after a backslash. -/
def unescapeSlashes : List Char → List Char
  | '\\' :: '/' :: rest => '/' :: unescapeSlashes rest
  | c :: rest => c :: unescapeSlashes rest
  | [] => []

def withGuard (shape : Checked Shape) (guard : Option (Checked Predicate)) : Checked Shape :=
  match guard with
  | none => shape
  | some guard => do
    let inner ← shape
    let predicate ← guard
    return .guarded inner predicate

def guardClause : Reading (Checked Predicate) :=
  rule do
    blanks
    keyword "where"
    blanks
    let (expr, text) ← withText Predicate.disjunction
    return expr.map fun expr => { source := String.ofList text, expr }

def guardedOf (unary : Reading (Checked Shape)) : Reading (Checked Shape) :=
  rule do
    let shape ← unary
    return withGuard shape (← optional guardClause)

def alternationOf (unary : Reading (Checked Shape)) : Reading (Checked Shape) :=
  rule do
    let options ← separated (guardedOf unary) do
      blanks
      literal "|"
      blanks
    return (checkAll options).map fun
      | [only] => only
      | options => .oneOf options

def elements (alternation : Reading (Checked Shape)) : Reading (Checked (List Shape)) :=
  rule do
    let shapes ← separated alternation do
      blanks
      literal ","
      blanks
    return checkAll shapes

def childList (alternation : Reading (Checked Shape)) : Reading (Checked (List Shape)) :=
  rule do
    blanks
    literal "("
    blanks
    let shapes ← optional (elements alternation)
    blanks
    literal ")"
    return shapes.getD (.ok [])

def kindNode (alternation : Reading (Checked Shape)) : Reading (Checked Shape) :=
  rule do
    let kind ← kindName
    match ← optional (childList alternation) with
    | none => return .ok (.kind kind)
    | some items => return items.map (.node kind)

def group (alternation : Reading (Checked Shape)) : Reading (Checked Shape) :=
  rule do
    literal "("
    blanks
    let shape ← alternation
    blanks
    literal ")"
    return shape

def primary (alternation : Reading (Checked Shape)) : Reading (Checked Shape) :=
  rule (firstOf [
    group alternation,
    rule do
      literal "..."
      return .ok .ellipsis,
    rule do
      let _ ← takeFirst wildcardLength?
      return .ok .wildcard,
    rule do
      let text ← takeFirst metavarLength?
      return .ok (.metavar (String.ofList (text.drop 1))),
    do return .ok (.text (← Predicate.stringLiteral)),
    rule do
      let text ← takeFirst regexLength?
      return .ok (.regex (String.ofList (unescapeSlashes (text.drop 1).dropLast))),
    kindNode alternation])

/-- A shape that may have operators in front, with at most so many levels of nesting. -/
def unaryAt : Nat → Reading (Checked Shape)
  | 0 => fail
  | depth + 1 =>
    rule (firstOf [
      rule do
        literal "!"
        blanks
        return (← unaryAt depth).map .negation,
      rule do
        literal ">>"
        blanks
        return (← unaryAt depth).map .deep,
      rule do
        let bound ← name
        blanks
        literal ":"
        blanks
        return (← unaryAt depth).map (.capture bound),
      primary (alternationOf (unaryAt depth))])

def siblings (alternation : Reading (Checked Shape)) : Reading (Checked Shape) :=
  rule do
    literal "["
    blanks
    let items ← elements alternation
    blanks
    literal "]"
    return withGuard (items.map .siblings) (← optional guardClause)

/-- The text of a pattern. Nesting cannot go deeper than there are characters. -/
def patternText (depth : Nat) : Reading (Checked Shape) :=
  rule do
    blanks
    let shape ← rule (either (siblings (alternationOf (unaryAt depth))) (alternationOf (unaryAt depth)))
    blanks
    return shape

def syntaxFailure (source : String) (position : Nat) : Failure :=
  { subject := .pattern source
    message := "invalid pattern " ++ quoted source ++ ": syntax error at column " ++
      toString (columnOf source.toList position)
    code := .patternText
    span := some (spanOfCharacter source.toList position) }

def readShape (source : String) : Except (Stop Failure) Shape :=
  match (patternText (source.length + 1)).whole source.toList with
  | .error position => .error (.fault (syntaxFailure source position))
  | .ok (.error stop) => .error (stop.map Predicate.Fault.failure)
  | .ok (.ok shape) => .ok shape

end Pattern

end TreeLint
