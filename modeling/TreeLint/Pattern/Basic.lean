import TreeLint.Predicate.Reader

/-!
# Patterns

A pattern describes a shape of trees: kinds with child lists, texts, captures, choices, negations, descendants and
guards.

* A `Shape` is a pattern as written.
* An `Instr` is a pattern that has been checked against a grammar: kinds have their numbers, expressions are compiled, a
  variable that is already bound has become a reference to it, and the instructions are numbered in preorder.
-/

namespace TreeLint

namespace Pattern

inductive Shape where
  | kind (name : String)
  /-- A node of a kind with exactly these children. -/
  | node (name : String) (items : List Shape)
  | wildcard
  | ellipsis
  | capture (name : String) (inner : Shape)
  /-- A capture where the name is new, and the same text where it is not. -/
  | metavar (name : String)
  | text (value : String)
  | regex (source : String)
  | oneOf (options : List Shape)
  | negation (inner : Shape)
  | deep (inner : Shape)
  | guarded (inner : Shape) (predicate : Predicate)
  | siblings (items : List Shape)
  deriving Inhabited, Repr

def Shape.isEllipsis : Shape → Bool
  | ellipsis => true
  | capture _ ellipsis => true
  | _ => false

inductive Instr where
  | kind (id : Nat) (name : String) (kindId : Nat)
  | node (id : Nat) (name : String) (kindId : Nat) (items : List Instr)
  | wildcard (id : Nat)
  | ellipsis (id : Nat)
  | capture (id : Nat) (name : String) (inner : Instr)
  | metavar (id : Nat) (name : String)
  | backref (id : Nat) (name : String)
  | text (id : Nat) (value : String)
  | regex (id : Nat) (source : String) (compiled : Regex)
  | oneOf (id : Nat) (options : List Instr)
  | negation (id : Nat) (inner : Instr)
  | deep (id : Nat) (inner : Instr)
  | guarded (id : Nat) (inner : Instr) (predicate : Predicate)
  | siblings (id : Nat) (items : List Instr) (guard : Option Predicate)
  deriving Inhabited

namespace Instr

def id : Instr → Nat
  | kind id _ _ | node id _ _ _ | wildcard id | ellipsis id | capture id _ _ | metavar id _ | backref id _ | text id _
  | regex id _ _ | oneOf id _ | negation id _ | deep id _ | guarded id _ _ | siblings id _ _ => id

def isEllipsis : Instr → Bool
  | ellipsis _ => true
  | capture _ _ (ellipsis _) => true
  | _ => false

def runName? : Instr → Option String
  | capture _ name _ => some name
  | _ => none

mutual

def size : Instr → Nat
  | kind _ _ _ | wildcard _ | ellipsis _ | metavar _ _ | backref _ _ | text _ _ | regex _ _ _ => 1
  | node _ _ _ items | oneOf _ items | siblings _ items _ => sizeOfAll items + 1
  | capture _ _ inner | negation _ inner | deep _ inner | guarded _ inner _ => inner.size + 1

def sizeOfAll : List Instr → Nat
  | [] => 0
  | item :: items => item.size + sizeOfAll items

end

mutual

def reads : Instr → List String
  | kind _ _ _ | wildcard _ | ellipsis _ | metavar _ _ | text _ _ | regex _ _ _ => []
  | backref _ name => [name]
  | node _ _ _ items | oneOf _ items => readsOfAll items
  | capture _ _ inner | negation _ inner | deep _ inner => inner.reads
  | guarded _ inner predicate => inner.reads ++ predicate.references
  | siblings _ items guard => readsOfAll items ++ (guard.map Predicate.references).getD []

def readsOfAll : List Instr → List String
  | [] => []
  | item :: items => item.reads ++ readsOfAll items

end

def refs (instr : Instr) : List String :=
  Predicate.nameSet instr.reads

mutual

def mayBind : Instr → List String
  | kind _ _ _ | wildcard _ | ellipsis _ | backref _ _ | text _ _ | regex _ _ _ | negation _ _ => []
  | metavar _ name => [name]
  | node _ _ _ items | oneOf _ items | siblings _ items _ => mayBindOfAll items
  | capture _ name inner => inner.mayBind ++ [name]
  | deep _ inner | guarded _ inner _ => inner.mayBind

def mayBindOfAll : List Instr → List String
  | [] => []
  | item :: items => item.mayBind ++ mayBindOfAll items

end

mutual

/-- The names that every match of an instruction binds. -/
def surelyBinds : Instr → List String
  | kind _ _ _ | wildcard _ | ellipsis _ | backref _ _ | text _ _ | regex _ _ _ | negation _ _ => []
  | metavar _ name => [name]
  | node _ _ _ items | siblings _ items _ => surelyBindOfAll items
  | oneOf _ options => surelyBindOfEach options
  | capture _ name inner => inner.surelyBinds ++ [name]
  | deep _ inner | guarded _ inner _ => inner.surelyBinds

def surelyBindOfAll : List Instr → List String
  | [] => []
  | item :: items => item.surelyBinds ++ surelyBindOfAll items

def surelyBindOfEach : List Instr → List String
  | [] => []
  | [option] => option.surelyBinds
  | option :: options => option.surelyBinds.filter (surelyBindOfEach options).contains

end

mutual

def runNames : Instr → List String
  | kind _ _ _ | wildcard _ | ellipsis _ | metavar _ _ | backref _ _ | text _ _ | regex _ _ _ => []
  | node _ _ _ items | oneOf _ items | siblings _ items _ => runNamesOfAll items
  | capture _ name (ellipsis _) => [name]
  | capture _ _ inner | negation _ inner | deep _ inner | guarded _ inner _ => inner.runNames

def runNamesOfAll : List Instr → List String
  | [] => []
  | item :: items => item.runNames ++ runNamesOfAll items

end

/-- For each item of a list, how many items after it take exactly one sibling. -/
def restFixed : List Instr → List Nat
  | [] => []
  | _ :: items => items.countP (!·.isEllipsis) :: restFixed items

/-- For each item of a list, whether an ellipsis comes after it. -/
def restOpen : List Instr → List Bool
  | [] => []
  | _ :: items => items.any (·.isEllipsis) :: restOpen items

/-- For each item of a list, the captures that it and those after it read. -/
def suffixRefs : List Instr → List (List String)
  | [] => []
  | item :: items => Predicate.nameSet (readsOfAll (item :: items)) :: suffixRefs items

/-- Numbers from several lists if every list is known, sorted and each once. -/
def unionKinds : List (Option (List Nat)) → Option (List Nat)
  | [] => some []
  | none :: _ => none
  | some kinds :: others => (unionKinds others).map (kinds ++ ·)

mutual

/-- The kinds of nodes that an instruction can match, or nothing if any may do. -/
def kindsMatched : Instr → Option (List Nat)
  | kind _ _ kindId | node _ _ kindId _ => some [kindId]
  | capture _ _ inner | guarded _ inner _ => inner.kindsMatched
  | oneOf _ options => unionKinds (kindsMatchedOfAll options)
  | _ => none

def kindsMatchedOfAll : List Instr → List (Option (List Nat))
  | [] => []
  | option :: options => option.kindsMatched :: kindsMatchedOfAll options

end

end Instr

end Pattern

structure Pattern where
  source : String
  root : Pattern.Instr
  grammarName : String
  deriving Inhabited

namespace Pattern

def captures (pattern : Pattern) : List String :=
  Predicate.nameSet pattern.root.mayBind

def sequenceCaptures (pattern : Pattern) : List String :=
  Predicate.nameSet pattern.root.runNames

def size (pattern : Pattern) : Nat :=
  pattern.root.size

def anchorKinds (pattern : Pattern) : Option (List Nat) :=
  pattern.root.kindsMatched.map fun kinds => kinds.eraseDups.mergeSort (· ≤ ·)

def isSequence (pattern : Pattern) : Bool :=
  match pattern.root with
  | .siblings _ _ _ => true
  | _ => false

def summary (pattern : Pattern) : String :=
  "Pattern(" ++ quoted pattern.source ++ ")"

namespace Instr

def word : Instr → String
  | kind _ _ _ | node _ _ _ _ => "kind"
  | wildcard _ => "wildcard"
  | ellipsis _ => "ellipsis"
  | capture _ _ _ => "capture"
  | metavar _ _ => "metavar"
  | backref _ _ => "backref"
  | text _ _ => "text"
  | regex _ _ _ => "regex"
  | oneOf _ _ => "alternation"
  | negation _ _ => "negation"
  | deep _ _ => "deep"
  | guarded _ _ _ => "where"
  | siblings _ _ _ => "sequence"

def name? : Instr → Option String
  | kind _ name _ | node _ name _ _ | capture _ name _ | metavar _ name | backref _ name => some name
  | _ => none

def value? : Instr → Option String
  | text _ value | regex _ value _ => some value
  | _ => none

def predicate? : Instr → Option Predicate
  | guarded _ _ predicate => some predicate
  | siblings _ _ guard => guard
  | _ => none

def children? : Instr → Option (List Instr)
  | node _ _ _ items | oneOf _ items | siblings _ items _ => some items
  | capture _ _ inner | negation _ inner | deep _ inner | guarded _ inner _ => some [inner]
  | _ => none

def label (instr : Instr) : String :=
  instr.word ++
    (match instr.name? with
      | some name => if name.isEmpty then "" else " " ++ name
      | none => "") ++
    (match instr.value? with
      | some value => " " ++ quoted value
      | none => "") ++
    (match instr.predicate? with
      | some predicate => " where " ++ quoted predicate.source
      | none => "") ++
    (match instr with
      | kind _ _ _ => " (any children)"
      | _ => "")

mutual

def lines (margin : String) (instr : Instr) : List String :=
  (margin ++ instr.label) ::
    match instr with
    | node _ _ _ items | oneOf _ items | siblings _ items _ => linesOfAll (margin ++ "  ") items
    | capture _ _ inner | negation _ inner | deep _ inner | guarded _ inner _ => inner.lines (margin ++ "  ")
    | _ => []

def linesOfAll (margin : String) : List Instr → List String
  | [] => []
  | item :: items => item.lines margin ++ linesOfAll margin items

end

end Instr

def pretty (pattern : Pattern) : String :=
  "\n".intercalate (pattern.root.lines "")

end Pattern

end TreeLint
