import TreeLint.Pattern.Form
import TreeLint.Pattern.Reader

/-!
# Compiling patterns

A shape is checked against a grammar from left to right.

* Kinds must be known, and expressions must compile.
* An ellipsis stands directly inside a list of children or of siblings; siblings stand at the top only and do not start
  with an ellipsis.
* A name is bound once on every path. A variable that is certainly bound already becomes a reference to it, and one that
  is bound on some paths only is refused.
* A guard reads only names that are certainly bound where it stands.
-/

namespace TreeLint

namespace Pattern

inductive Defect where
  | emptySiblings
  | openSiblings
  | loneEllipsis
  | unknownKind (name grammar : String)
  | nestedSiblings
  | strayEllipsis
  | invalidRegex (source fault : String)
  | partlyBound (name : String)
  | boundTwice (name : String)
  | ellipsisBranch
  | guardedEllipsis
  | unboundGuard (source : String) (names : List String)
  deriving DecidableEq, Repr

namespace Defect

def detail : Defect → String
  | emptySiblings => "empty sibling sequence"
  | openSiblings => "a sibling sequence cannot start with '...'"
  | loneEllipsis => "'...' must appear inside a child list"
  | unknownKind name grammar => "unknown node kind " ++ quoted name ++ " for grammar " ++ quoted grammar
  | nestedSiblings => "sibling sequences are only allowed at the top level"
  | strayEllipsis => "'...' must appear directly inside a child list"
  | invalidRegex source fault => "invalid regex /" ++ source ++ "/: " ++ fault
  | partlyBound name => "$" ++ name ++ " is bound on only some paths before this use"
  | boundTwice name => "capture " ++ quoted name ++ " is bound twice"
  | ellipsisBranch => "'...' cannot be an alternation branch"
  | guardedEllipsis => "guards cannot be attached to '...'; guard the enclosing node"
  | unboundGuard source names =>
    "guard " ++ quoted source ++ " reads capture(s) " ++ ", ".intercalate names ++ " that are not bound at that point"

def code : Defect → Code
  | unknownKind _ _ => .unknownKind
  | invalidRegex _ _ => .invalidRegex
  | partlyBound _ | boundTwice _ => .duplicateCapture
  | unboundGuard _ _ => .unboundCapture
  | _ => .malformedPattern

def failure (source : String) (defect : Defect) : Failure :=
  { subject := .pattern source, message := "pattern " ++ quoted source ++ ": " ++ defect.detail, code := defect.code }

end Defect

def fail (defect : Defect) : Except (Stop Defect) α :=
  .error (.fault defect)

def checkGuard (available : List String) (predicate : Predicate) : Except (Stop Defect) Unit :=
  let missing := predicate.references.filter (!available.contains ·)
  if missing.isEmpty then .ok () else fail (.unboundGuard predicate.source missing)

mutual

/-- Checks a shape whose first instruction gets the number `id`. The names in `sure` are certainly bound before it, and
those in `possible` on some path; `inList` tells whether it stands directly in a list. -/
def check (grammar : Grammar) (sure possible : List String) (inList : Bool) (id : Nat) :
    Shape → Except (Stop Defect) Instr
  | .kind name =>
    match grammar.kindId? name with
    | some kindId => .ok (.kind id name kindId)
    | none => fail (.unknownKind name grammar.name)
  | .node name items =>
    match grammar.kindId? name with
    | some kindId => do return .node id name kindId (← checkItems grammar sure possible (id + 1) items)
    | none => fail (.unknownKind name grammar.name)
  | .siblings _ => fail .nestedSiblings
  | .wildcard => .ok (.wildcard id)
  | .text value => .ok (.text id value)
  | .ellipsis => if inList then .ok (.ellipsis id) else fail .strayEllipsis
  | .regex source =>
    match Regex.readString source with
    | .ok compiled => .ok (.regex id source compiled)
    | .error stop => .error (stop.map (.invalidRegex source))
  | .metavar name =>
    if sure.contains name then .ok (.backref id name)
    else if possible.contains name then fail (.partlyBound name)
    else .ok (.metavar id name)
  | .capture name inner =>
    if possible.contains name then fail (.boundTwice name)
    else
      match inner with
      | .ellipsis => if inList then .ok (.capture id name (.ellipsis (id + 1))) else fail .strayEllipsis
      | inner => do
        let inner ← check grammar sure possible false (id + 1) inner
        if inner.mayBind.contains name then fail (.boundTwice name)
        return .capture id name inner
  | .oneOf options => do return .oneOf id (← checkOptions grammar sure possible (id + 1) options)
  | .negation inner => do return .negation id (← check grammar sure possible false (id + 1) inner)
  | .deep inner => do return .deep id (← check grammar sure possible false (id + 1) inner)
  | .guarded inner predicate =>
    if inner.isEllipsis then fail .guardedEllipsis
    else do
      let inner ← check grammar sure possible false (id + 1) inner
      checkGuard (sure ++ inner.surelyBinds) predicate
      return .guarded id inner predicate

/-- Checks the items of a list; each may use the names bound by those before it. -/
def checkItems (grammar : Grammar) (sure possible : List String) (id : Nat) :
    List Shape → Except (Stop Defect) (List Instr)
  | [] => .ok []
  | item :: items => do
    let first ← check grammar sure possible true id item
    let rest ← checkItems grammar (sure ++ first.surelyBinds) (possible ++ first.mayBind) (id + first.size) items
    return first :: rest

/-- Checks the options of an alternation; each stands for itself. -/
def checkOptions (grammar : Grammar) (sure possible : List String) (id : Nat) :
    List Shape → Except (Stop Defect) (List Instr)
  | [] => .ok []
  | option :: options => do
    match option with
    | .ellipsis => fail .ellipsisBranch
    | option =>
      let first ← check grammar sure possible false id option
      let rest ← checkOptions grammar sure possible (id + first.size) options
      return first :: rest

end

def checkSiblings (grammar : Grammar) (items : List Shape) (guard : Option Predicate) : Except (Stop Defect) Instr := do
  match items with
  | [] => fail .emptySiblings
  | first :: _ => if first.isEllipsis then fail .openSiblings
  let instrs ← checkItems grammar [] [] 1 items
  match guard with
  | some predicate => checkGuard (Instr.surelyBindOfAll instrs) predicate
  | none => pure ()
  return .siblings 0 instrs guard

def checkTop (grammar : Grammar) : Shape → Except (Stop Defect) Instr
  | .siblings items => checkSiblings grammar items none
  | .guarded (.siblings items) predicate => checkSiblings grammar items (some predicate)
  | .ellipsis => fail .loneEllipsis
  | shape => check grammar [] [] false 0 shape

def compileShape (grammar : Grammar) (source : String) (shape : Shape) : Except (Stop Failure) Pattern :=
  match checkTop grammar shape with
  | .ok root => .ok { source, root, grammarName := grammar.name }
  | .error stop => .error (stop.map (Defect.failure source))

def compile (grammar : Grammar) (source : String) : Except (Stop Failure) Pattern := do
  compileShape grammar source (← readShape source)

inductive Given where
  | text (source : String)
  | form (form : Sexp)

/-- What a form gives: a string holds a pattern as text, and a number is no pattern. -/
def Given.ofSexp? : Sexp → Option Given
  | .string source => some (.text source)
  | .number _ => none
  | other => some (.form other)

def compileGiven (grammar : Grammar) : Given → Except (Stop Failure) Pattern
  | .text source => compile grammar source
  | .form form => do
    let source ← form.dump.mapError .breakdown
    compileShape grammar source (← shapeOf true form)

end Pattern

end TreeLint
