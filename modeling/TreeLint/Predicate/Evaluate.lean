import TreeLint.Predicate.Basic

/-!
# Evaluating predicates

An expression has a value over the captures of a match, or it fails. Values of different types are never compared, and a
capture stands for its source text wherever a string is wanted.

* `Predicate.evaluate` gives the truth of a predicate;
* connectives and membership look at their operands from left to right and stop as soon as the answer is known.
-/

namespace TreeLint

namespace Predicate

inductive Value where
  | text (value : Text)
  | bool (value : Bool)
  | number (value : Number)
  | list (items : List Value)
  | capture (binding : Binding)
  deriving Inhabited, Repr

inductive ValueType where
  | text
  | bool
  | number
  | list
  | capture
  deriving DecidableEq, Inhabited, Repr

def ValueType.name : ValueType → String
  | text => "string"
  | bool => "bool"
  | number => "number"
  | list => "list"
  | capture => "capture"

def Value.type : Value → ValueType
  | text _ => .text
  | bool _ => .bool
  | number _ => .number
  | list _ => .list
  | capture _ => .capture

inductive Mishap where
  | unbound (name : String)
  | wrongType (place : String) (wanted got : ValueType)
  | noLength (got : ValueType)
  | incomparable (left : ValueType) (mark : String) (right : ValueType)
  | noMembers (mark : String) (got : ValueType)
  | notBoolean (place : String) (got : ValueType)
  | invalidRegex (place fault : String)
  | noTruth (source : String) (got : ValueType)
  deriving DecidableEq, Repr

def Mishap.message : Mishap → String
  | unbound name => "capture " ++ quoted name ++ " is not bound"
  | wrongType place wanted got => place ++ ": expected " ++ wanted.name ++ ", got " ++ got.name
  | noLength got => "len(): expected string, list or capture, got " ++ got.name
  | incomparable left mark right => "cannot compare " ++ left.name ++ " " ++ mark ++ " " ++ right.name
  | noMembers mark got => "'" ++ mark ++ "': right operand must be a list or string, got " ++ got.name
  | notBoolean place got => place ++ ": expected a boolean, got " ++ got.name
  | invalidRegex place fault => place ++ ": invalid regex: " ++ fault
  | noTruth source got => "predicate " ++ quoted source ++ " produced " ++ got.name ++ ", not a boolean"

def Mishap.code : Mishap → Code
  | unbound _ | invalidRegex _ _ => .predicateRuntime
  | _ => .predicateType

def Mishap.failure (mishap : Mishap) : Failure :=
  { subject := .predicate, message := mishap.message, code := mishap.code }

abbrev Outcome := Except (Stop Mishap)

def failed (mishap : Mishap) : Outcome α :=
  .error (.fault mishap)

def Value.asText (tree : Tree) : Value → Value
  | capture binding => text (binding.text tree)
  | value => value

def Value.expectText (tree : Tree) (place : String) (value : Value) : Outcome Text :=
  match value.asText tree with
  | text value => .ok value
  | other => failed (.wrongType place .text other.type)

def Value.expectCapture (place : String) : Value → Outcome Binding
  | capture binding => .ok binding
  | other => failed (.wrongType place .capture other.type)

def Value.expectBool (place : String) : Value → Outcome Bool
  | bool value => .ok value
  | other => failed (.notBoolean place other.type)

def truthNumber (value : Bool) : Number :=
  .int (if value then 1 else 0)

mutual

/-- Whether two values inside lists are equal: truth values count as numbers, and captures equal nothing. -/
def Value.same : Value → Value → Bool
  | .text a, .text b => a == b
  | .bool a, .bool b => a == b
  | .number a, .number b => a.equals b
  | .bool a, .number b => (truthNumber a).equals b
  | .number a, .bool b => a.equals (truthNumber b)
  | .list a, .list b => Value.sameAll a b
  | _, _ => false

def Value.sameAll : List Value → List Value → Bool
  | [], [] => true
  | a :: as, b :: bs => Value.same a b && Value.sameAll as bs
  | _, _ => false

end

def Value.equal (mark : String) (left right : Value) : Outcome Bool :=
  if left.type == right.type then .ok (left.same right) else failed (.incomparable left.type mark right.type)

def compareTexts : List Nat → List Nat → Ordering
  | [], [] => .eq
  | [], _ :: _ => .lt
  | _ :: _, [] => .gt
  | a :: as, b :: bs => (compare a b).then (compareTexts as bs)

def Value.order? : Value → Value → Option (Option Ordering)
  | .text a, .text b => some (some (compareTexts (Text.codes a) (Text.codes b)))
  | .number a, .number b => some (a.compare? b)
  | _, _ => none

def Value.ordered (mark : String) (holds : Ordering → Bool) (left right : Value) : Outcome Bool :=
  match left.order? right with
  | some order => .ok (order.any holds)
  | none => failed (.incomparable left.type mark right.type)

def isFound (place : String) (pattern text : Text) : Outcome Bool :=
  match Regex.read pattern with
  | .ok regex => .ok (regex.isFoundIn text)
  | .error stop => .error (stop.map fun fault => .invalidRegex place (fault.text pattern))

/-- Whether a value is among others, which are looked at from left to right. -/
def isAmong (tree : Tree) (mark : String) (value : Value) : List Value → Outcome Bool
  | [] => .ok false
  | item :: items => do
    if ← value.equal mark (item.asText tree) then return true
    isAmong tree mark value items

def isMember (tree : Tree) (mark : String) (left right : Value) : Outcome Bool :=
  let left := left.asText tree
  match right with
  | .list items => isAmong tree mark left items
  | .text text => do return Text.hasPart text (← left.expectText tree mark)
  | .capture binding => do return Text.hasPart (binding.text tree) (← left.expectText tree mark)
  | other => failed (.noMembers mark other.type)

def compareText (tree : Tree) (mark : String) (holds : Text → Text → Outcome Bool) (left right : Value) :
    Outcome Bool := do
  let text ← left.expectText tree mark
  let argument ← right.expectText tree mark
  holds text argument

def Comparison.apply (tree : Tree) (comparison : Comparison) (left right : Value) : Outcome Bool :=
  let mark := comparison.mark
  match comparison with
  | isIn => isMember tree mark left right
  | notIn => (isMember tree mark left right).map (!·)
  | startsWith => compareText tree mark (fun text part => .ok (text.startsWith part)) left right
  | endsWith => compareText tree mark (fun text part => .ok (text.endsWith part)) left right
  | contains => compareText tree mark (fun text part => .ok (text.hasPart part)) left right
  | found => compareText tree mark (fun text pattern => isFound "'=~'" pattern text) left right
  | equal => (left.asText tree).equal mark (right.asText tree)
  | unequal => ((left.asText tree).equal mark (right.asText tree)).map (!·)
  | less => (left.asText tree).ordered mark (·.isLT) (right.asText tree)
  | atMost => (left.asText tree).ordered mark (·.isLE) (right.asText tree)
  | greater => (left.asText tree).ordered mark (·.isGT) (right.asText tree)
  | atLeast => (left.asText tree).ordered mark (·.isGE) (right.asText tree)

def Value.ofInt (value : Int) : Value :=
  .number (.int value)

def attributeValue (tree : Tree) (binding : Binding) : Attribute → Value
  | .text => .text (binding.text tree)
  | .kind => .text (Text.ofString (binding.kind tree))
  | .start => .ofInt (binding.start tree)
  | .stop => .ofInt (binding.stop tree)
  | .line => .ofInt (binding.line tree)
  | .column => .ofInt (binding.column tree)
  | .count => .ofInt binding.count

def lengthOf (tree : Tree) : Value → Outcome Value
  | .capture binding => .ok (.ofInt (if binding.isRun then binding.count else (binding.text tree).length))
  | .text text => .ok (.ofInt text.length)
  | .list items => .ok (.ofInt items.length)
  | other => failed (.noLength other.type)

def Function.place (function : Function) : String :=
  function.name ++ "()"

def Function.ofCapture (tree : Tree) (function : Function) (aspect : Attribute) (value : Value) : Outcome Value := do
  return attributeValue tree (← value.expectCapture function.place) aspect

def Function.ofText (tree : Tree) (function : Function) (change : Text → Text) (value : Value) : Outcome Value := do
  return .text (change (← value.expectText tree function.place))

def Function.apply (tree : Tree) (function : Function) (arguments : List Value) : Outcome Value :=
  let first := arguments.getD 0 default
  match function with
  | len => lengthOf tree first
  | count => function.ofCapture tree .count first
  | text => function.ofCapture tree .text first
  | kind => function.ofCapture tree .kind first
  | line => function.ofCapture tree .line first
  | column => function.ofCapture tree .column first
  | lower => function.ofText tree (fun text => Text.ofCodes (lowerCase text.codes)) first
  | upper => function.ofText tree (fun text => Text.ofCodes (upperCase text.codes)) first
  | trim => function.ofText tree Text.trim first
  | found => do
    let text ← first.expectText tree function.place
    let pattern ← (arguments.getD 1 default).expectText tree function.place
    return .bool (← isFound function.place pattern text)

def Constant.value : Constant → Value
  | text value => .text (Text.ofString value)
  | bool value => .bool value
  | number value _ => .number value

mutual

def Expr.evaluate (tree : Tree) (bindings : Bindings) : Expr → Outcome Value
  | .constant value => .ok value.value
  | .list items => do return .list (← evaluateAll tree bindings items)
  | .capture name aspect =>
    match bindings.get? name with
    | none => failed (.unbound name)
    | some binding =>
      match aspect with
      | none => .ok (.capture binding)
      | some aspect => .ok (attributeValue tree binding aspect)
  | .call function arguments => do function.apply tree (← evaluateAll tree bindings arguments)
  | .compare comparison left right => do
    let left ← left.evaluate tree bindings
    let right ← right.evaluate tree bindings
    return .bool (← comparison.apply tree left right)
  | .conj operands => do return .bool (← allHold tree bindings operands)
  | .disj operands => do return .bool (← oneHolds tree bindings operands)
  | .neg operand => do
    let value ← operand.evaluate tree bindings
    return .bool (!(← value.expectBool "not"))

def evaluateAll (tree : Tree) (bindings : Bindings) : List Expr → Outcome (List Value)
  | [] => .ok []
  | expr :: exprs => do
    let value ← expr.evaluate tree bindings
    let values ← evaluateAll tree bindings exprs
    return value :: values

def allHold (tree : Tree) (bindings : Bindings) : List Expr → Outcome Bool
  | [] => .ok true
  | expr :: exprs => do
    let value ← expr.evaluate tree bindings
    if ← value.expectBool "and" then allHold tree bindings exprs else return false

def oneHolds (tree : Tree) (bindings : Bindings) : List Expr → Outcome Bool
  | [] => .ok false
  | expr :: exprs => do
    let value ← expr.evaluate tree bindings
    if ← value.expectBool "or" then return true else oneHolds tree bindings exprs

end

def evaluate (predicate : Predicate) (tree : Tree) (bindings : Bindings) : Outcome Bool := do
  match ← predicate.expr.evaluate tree bindings with
  | .bool truth => return truth
  | other => failed (.noTruth predicate.source other.type)

end Predicate

end TreeLint
