import TreeLint.Predicate.Basic
import TreeLint.Reading
import TreeLint.Text.WordPart

/-!
# Reading predicates

The grammar of predicates, from the loosest to the tightest binding:

* `a or b`, then `a and b`, then `not a`;
* one comparison: `==`, `!=`, `<=`, `>=`, `=~`, `<`, `>`, `not in`, `in`, `startswith`, `endswith`, `contains`;
* an operand: a group in parentheses, a list in brackets, a string, a number, `true` or `false`, a call, or a capture
  such as `x`, `$x` or `x.text`.

Names of functions and attributes, and the digits of numbers, are checked when the whole text has been read, in the
order in which they stand.
-/

namespace TreeLint

namespace Predicate

/-- What is wrong with an expression that reads well, and the range of characters at fault. -/
inductive Fault where
  | unknownFunction (name : String) (start stop : Nat)
  | wrongArity (function : Function) (given : Nat) (start stop : Nat)
  | unknownAttribute (name : String) (start stop : Nat)
  deriving DecidableEq, Repr

def Fault.message : Fault → String
  | unknownFunction name _ _ => "unknown predicate function " ++ quoted name
  | wrongArity function given _ _ =>
    function.name ++ "() takes " ++ toString function.arity ++ " argument(s), got " ++ toString given
  | unknownAttribute name _ _ =>
    "unknown capture attribute " ++ quoted name ++ " (expected one of " ++
      ", ".intercalate (Attribute.all.map Attribute.name) ++ ")"

def Fault.span : Fault → Span
  | unknownFunction _ start stop | wrongArity _ _ start stop | unknownAttribute _ start stop =>
    Span.between start stop

def Fault.failure (fault : Fault) : Failure :=
  { subject := .pattern "", message := fault.message, code := .predicateText, span := some fault.span }

abbrev Checked := Except (Stop Fault)

open Reading

def isSpace (c : Char) : Bool :=
  isBlank c.toNat && !(0x1C ≤ c.toNat && c.toNat ≤ 0x1F)

def blanks : Reading Unit := do
  let _ ← takeWhile isSpace

def startsName (c : Char) : Bool :=
  c.isAlpha || c == '_'

def inName (c : Char) : Bool :=
  c.isAlphanum || c == '_'

def nameLength? : List Char → Option Nat
  | c :: rest => if startsName c then some ((rest.takeWhile inName).length + 1) else none
  | [] => none

/-- Whether the first `count` characters are followed by something other than a part of a word. -/
def endsWord (rest : List Char) (count : Nat) : Bool :=
  match rest[count]? with
  | some c => !isWordPart c.toNat
  | none => true

def wordLength? (word : String) (rest : List Char) : Option Nat :=
  if word.toList.isPrefixOf rest && endsWord rest word.length then some word.length else none

def keyword (word : String) : Reading Unit :=
  rule do
    let _ ← takeFirst (wordLength? word)

def notInLength? (rest : List Char) : Option Nat :=
  if "not".toList.isPrefixOf rest then
    let gap := ((rest.drop 3).takeWhile isSpace).length
    if gap == 0 then none else (wordLength? "in" (rest.drop (3 + gap))).map (· + (3 + gap))
  else none

def name : Reading String :=
  rule do return String.ofList (← takeFirst nameLength?)

/-- The length of a text in quotes up to and with the closing quote; a backslash joins the character after it. -/
def quotedLength? (quote : Char) : List Char → Option Nat
  | [] => none
  | c :: rest =>
    if c == quote then some 1
    else if c == '\\' then
      match rest with
      | escaped :: rest => if escaped == '\n' then none else (quotedLength? quote rest).map (· + 2)
      | [] => none
    else (quotedLength? quote rest).map (· + 1)

def stringLength? : List Char → Option Nat
  | c :: rest => if c == '"' || c == '\'' then (quotedLength? c rest).map (· + 1) else none
  | [] => none

def stringEscapes : List (Char × Char) :=
  [('n', '\n'), ('t', '\t'), ('"', '"'), ('\'', '\''), ('\\', '\\')]

def unescape : List Char → List Char
  | '\\' :: c :: rest =>
    match stringEscapes.lookup c with
    | some plain => plain :: unescape rest
    | none => '\\' :: c :: unescape rest
  | c :: rest => c :: unescape rest
  | [] => []

def stringLiteral : Reading String :=
  rule do
    let text ← takeFirst stringLength?
    return String.ofList (unescape (text.drop 1).dropLast)

def isDigit (c : Char) : Bool :=
  isScriptDigit c.toNat

def numberLength? (rest : List Char) : Option Nat :=
  let sign := if rest.head? == some '-' then 1 else 0
  let whole := ((rest.drop sign).takeWhile isDigit).length
  if whole == 0 then none
  else
    let after := rest.drop (sign + whole)
    let fraction := ((after.drop 1).takeWhile isDigit).length
    if after.head? == some '.' && fraction != 0 then some (sign + whole + 1 + fraction) else some (sign + whole)

def checkNumber (text : List Char) : Checked Constant :=
  let number := if text.contains '.' then (readDouble? text).map .double else (readInt? text).map .int
  match number.bind Constant.ofNumber? with
  | some number => .ok number
  | none => .error (.breakdown .number)

def number : Reading (Checked Constant) :=
  rule do return checkNumber (← takeFirst numberLength?)

def boolean : Reading Bool :=
  rule do
    let text ← takeFirst fun rest => wordLength? "true" rest <|> wordLength? "false" rest
    return text == "true".toList

/-- The comparisons written with signs, each after those it begins with. -/
def signComparisons : List Comparison :=
  [.equal, .unequal, .atMost, .atLeast, .found, .less, .greater]

def wordComparisons : List Comparison :=
  [.isIn, .startsWith, .endsWith, .contains]

def comparisonSign : Reading Comparison :=
  rule (firstOf (
    signComparisons.map (fun sign => do
      literal sign.mark
      return sign) ++
    [rule do
      let _ ← takeFirst notInLength?
      return .notIn] ++
    wordComparisons.map fun word => do
      keyword word.mark
      return word))

/-- Several expressions that were read, or the first fault among them. -/
def checkAll : List (Checked α) → Checked (List α)
  | [] => .ok []
  | first :: others => do
    let value ← first
    let values ← checkAll others
    return value :: values

def items (nested : Reading (Checked Expr)) : Reading (Checked (List Expr)) :=
  rule do
    let exprs ← separated nested do
      blanks
      literal ","
      blanks
    return checkAll exprs

def optionalItems (nested : Reading (Checked Expr)) : Reading (Checked (List Expr)) := do
  match ← optional (items nested) with
  | some exprs => return exprs
  | none => return .ok []

def group (nested : Reading (Checked Expr)) : Reading (Checked Expr) :=
  rule do
    literal "("
    blanks
    let expr ← nested
    blanks
    literal ")"
    return expr

def bracketed (nested : Reading (Checked Expr)) : Reading (Checked Expr) :=
  rule do
    literal "["
    blanks
    let exprs ← optionalItems nested
    blanks
    literal "]"
    return exprs.map .list

def checkCall (name : String) (arguments : List Expr) (start stop : Nat) : Checked Expr :=
  match Function.ofName? name with
  | none => .error (.fault (.unknownFunction name start stop))
  | some function =>
    if arguments.length == function.arity then .ok (.call function arguments)
    else .error (.fault (.wrongArity function arguments.length start stop))

def call (nested : Reading (Checked Expr)) : Reading (Checked Expr) :=
  rule do
    let start ← here
    let name ← name
    blanks
    literal "("
    blanks
    let exprs ← optionalItems nested
    blanks
    literal ")"
    let stop ← here
    return exprs >>= fun arguments => checkCall name arguments start stop

def checkCapture (name : String) (aspect : Option String) (start stop : Nat) : Checked Expr :=
  match aspect with
  | none => .ok (.capture name none)
  | some aspect =>
    match Attribute.ofName? aspect with
    | some known => .ok (.capture name (some known))
    | none => .error (.fault (.unknownAttribute aspect start stop))

def captureLength? (rest : List Char) : Option Nat :=
  match rest with
  | '$' :: rest => (nameLength? rest).map (· + 1)
  | rest => nameLength? rest

def aspect : Reading String :=
  rule do
    literal "."
    name

def capture : Reading (Checked Expr) :=
  rule do
    let start ← here
    let text ← takeFirst captureLength?
    let aspect ← optional aspect
    let stop ← here
    return checkCapture (String.ofList (text.dropWhile (· == '$'))) aspect start stop

def operand (nested : Reading (Checked Expr)) : Reading (Checked Expr) :=
  rule (firstOf [
    group nested,
    bracketed nested,
    do return .ok (.constant (.text (← stringLiteral))),
    do return (← number).map .constant,
    do return .ok (.constant (.bool (← boolean))),
    call nested,
    capture])

def comparison (nested : Reading (Checked Expr)) : Reading (Checked Expr) :=
  rule do
    let left ← operand nested
    let tail ← optional do
      blanks
      let sign ← comparisonSign
      blanks
      let right ← operand nested
      return (sign, right)
    match tail with
    | none => return left
    | some (sign, right) => return do
      let left ← left
      let right ← right
      return .compare sign left right

def joined (word : String) (join : List Expr → Expr) (part : Reading (Checked Expr)) : Reading (Checked Expr) :=
  rule do
    let parts ← separated part do
      blanks
      keyword word
      blanks
    return (checkAll parts).map fun
      | [only] => only
      | operands => join operands

def disjunctionOf (negation : Reading (Checked Expr)) : Reading (Checked Expr) :=
  joined "or" .disj (joined "and" .conj negation)

/-- A negation or a comparison, with at most so many levels of nesting. -/
def negationAt : Nat → Reading (Checked Expr)
  | 0 => fail
  | depth + 1 =>
    rule (either
      (rule do
        keyword "not"
        blanks
        return (← negationAt depth).map .neg)
      (comparison (disjunctionOf (negationAt depth))))

/-- A disjunction. Nesting cannot go deeper than there are characters. -/
def disjunction : Reading (Checked Expr) :=
  fun place => disjunctionOf (negationAt (place.rest.length + 1)) place

def predicateText : Reading (Checked Expr) :=
  rule do
    blanks
    let expr ← disjunction
    blanks
    return expr

def syntaxFailure (source : String) (position : Nat) : Failure :=
  { subject := .pattern source
    message := "invalid predicate " ++ quoted source ++ " at column " ++ toString (columnOf source.toList position)
    code := .predicateText
    span := some (spanOfCharacter source.toList position) }

def read (source : String) : Except (Stop Failure) Predicate :=
  match predicateText.whole source.toList with
  | .error position => .error (.fault (syntaxFailure source position))
  | .ok (.error stop) => .error (stop.map Fault.failure)
  | .ok (.ok expr) => .ok { source, expr }

def readOver (known : List String) (source : String) : Except (Stop Failure) Predicate := do
  let predicate ← read source
  let unknown := predicate.references.filter (!known.contains ·)
  if unknown.isEmpty then return predicate
  else throw (.fault {
    subject := .pattern source
    message := "predicate " ++ quoted source ++ " references unknown capture(s) " ++ ", ".intercalate unknown
    code := .unboundCapture })

end Predicate

end TreeLint
