import TreeLint.Capture

/-!
# Predicates

A predicate is an expression over the captures of a match that is true or false. It is built from constants, lists,
captures with their attributes, function calls, comparisons, and the connectives `and`, `or` and `not`.
-/

namespace TreeLint

namespace Predicate

/-- The constants that can be written, so that NaN, which has no numeral, is none of them. -/
inductive Constant where
  | text (value : String)
  | bool (value : Bool)
  | number (value : Number) (real : value.isNaN = false := by rfl)
  deriving Inhabited, Repr

def Constant.ofNumber? (value : Number) : Option Constant :=
  if real : value.isNaN = false then some (.number value real) else none

inductive Function where
  | len
  | count
  | text
  | kind
  | line
  | column
  | lower
  | upper
  | trim
  | found
  deriving DecidableEq, Inhabited, Repr

namespace Function

def name : Function → String
  | len => "len"
  | count => "count"
  | text => "text"
  | kind => "kind"
  | line => "line"
  | column => "column"
  | lower => "lower"
  | upper => "upper"
  | trim => "trim"
  | found => "matches"

def all : List Function :=
  [len, count, text, kind, line, column, lower, upper, trim, found]

def ofName? (name : String) : Option Function :=
  all.find? (·.name == name)

def arity : Function → Nat
  | found => 2
  | _ => 1

end Function

inductive Comparison where
  | equal
  | unequal
  | atMost
  | atLeast
  | found
  | less
  | greater
  | notIn
  | isIn
  | startsWith
  | endsWith
  | contains
  deriving DecidableEq, Inhabited, Repr

def Comparison.mark : Comparison → String
  | equal => "=="
  | unequal => "!="
  | atMost => "<="
  | atLeast => ">="
  | found => "=~"
  | less => "<"
  | greater => ">"
  | notIn => "not in"
  | isIn => "in"
  | startsWith => "startswith"
  | endsWith => "endswith"
  | contains => "contains"

inductive Expr where
  | constant (value : Constant)
  | list (items : List Expr)
  | capture (name : String) (aspect : Option Attribute)
  | call (function : Function) (arguments : List Expr)
  | compare (comparison : Comparison) (left right : Expr)
  | conj (operands : List Expr)
  | disj (operands : List Expr)
  | neg (operand : Expr)
  deriving Inhabited, Repr

mutual

def Expr.references : Expr → List String
  | .constant _ => []
  | .list items => referencesOfAll items
  | .capture name _ => [name]
  | .call _ arguments => referencesOfAll arguments
  | .compare _ left right => left.references ++ right.references
  | .conj operands => referencesOfAll operands
  | .disj operands => referencesOfAll operands
  | .neg operand => operand.references

def referencesOfAll : List Expr → List String
  | [] => []
  | expr :: exprs => expr.references ++ referencesOfAll exprs

end

end Predicate

structure Predicate where
  source : String
  expr : Predicate.Expr
  deriving Inhabited, Repr

namespace Predicate

/-- Names in order, each once. -/
def nameSet (names : List String) : List String :=
  names.eraseDups.mergeSort (· ≤ ·)

def references (predicate : Predicate) : List String :=
  nameSet predicate.expr.references

def summary (predicate : Predicate) : String :=
  "Predicate(" ++ quoted predicate.source ++ ")"

end Predicate

end TreeLint
