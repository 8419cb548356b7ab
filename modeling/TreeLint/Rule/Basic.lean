import TreeLint.Pattern.Compile
import TreeLint.Template

/-!
# Rules

A rule is a pattern to look for with what to say about its matches: a message with references to captures, a severity, a
predicate that matches must satisfy, and the captures to point at.

A message that refers to something unknown does not keep a rule from being compiled: the defect is kept with the rule,
and the rule is reported instead of being run.
-/

namespace TreeLint

structure Rule.Draft where
  id : String
  message : String
  severity : String := "warning"
  /-- The predicate that matches must satisfy; an empty one is none. -/
  condition : Option String := none
  /-- The capture that findings point at, instead of the whole match; an empty one is none. -/
  primary : Option String := none
  secondary : List String := []
  description : String := ""
  tags : List String := []
  deriving Inhabited, Repr

inductive Rule.Defect where
  | emptyId
  | noGrammar
  | unknownSeverity (severity : String)
  | notCaptured (name pattern : String)
  | undefinedReference (name : String)
  | unknownAttribute (name aspect : String)
  deriving DecidableEq, Repr

namespace Rule.Defect

def detail : Defect → String
  | emptyId => "rule id must not be empty"
  | noGrammar => "a grammar is needed to compile the pattern"
  | unknownSeverity severity =>
    "unknown severity " ++ quoted severity ++ " (expected one of " ++ ", ".intercalate severities ++ ")"
  | notCaptured name pattern => quoted name ++ " is not a capture of " ++ quoted pattern
  | undefinedReference name => "message references undefined capture \x7b" ++ name ++ "\x7d"
  | unknownAttribute name aspect => "message uses unknown attribute \x7b" ++ name ++ "." ++ aspect ++ "\x7d"

def code : Defect → Code
  | undefinedReference _ | unknownAttribute _ _ => .undefinedTemplateCapture
  | _ => .invalidRule

def failure (id : String) (defect : Defect) : Failure :=
  if id.isEmpty then { subject := .rule id, message := defect.detail, code := defect.code }
  else { subject := .rule id, message := "rule " ++ quoted id ++ ": " ++ defect.detail, code := defect.code }

end Rule.Defect

structure Rule where
  id : String
  pattern : Pattern
  message : String
  severity : String
  predicate : Option Predicate
  primary : Option String
  secondary : List String
  description : String
  tags : List String
  defect : Option Rule.Defect

namespace Rule

def failure? (rule : Rule) : Option Failure :=
  rule.defect.map (Defect.failure rule.id)

def summary (rule : Rule) : String :=
  "Rule(" ++ quoted rule.id ++ ", " ++ quoted rule.pattern.source ++ ")"

def render (rule : Rule) (tree : Tree) (captures : Bindings) : Text :=
  (Template.render? tree captures rule.message).getD []

def referenceDefect? (captures : List String) : String × Option String → Option Defect
  | (name, aspect) =>
    if !captures.contains name then some (.undefinedReference name)
    else
      match aspect with
      | some aspect => if (Attribute.ofName? aspect).isSome then none else some (.unknownAttribute name aspect)
      | none => none

/-- What is wrong with a message over these captures: the first defect of its references. -/
def messageDefect? (captures : List String) (message : String) : Option Defect :=
  (Template.references message).findSome? (referenceDefect? captures)

namespace Draft

def pointsAt (draft : Draft) : List String :=
  (draft.primary.toList.filter (!·.isEmpty)) ++ draft.secondary

def defect? (draft : Draft) (pattern : Pattern) : Option Defect :=
  if draft.id.isEmpty then some .emptyId
  else if !severities.contains draft.severity then some (.unknownSeverity draft.severity)
  else
    (draft.pointsAt.find? (!pattern.captures.contains ·)).map fun name => .notCaptured name pattern.source

def readCondition (draft : Draft) (captures : List String) : Except (Stop Failure) (Option Predicate) :=
  match draft.condition with
  | none => .ok none
  | some source => if source.isEmpty then .ok none else (Predicate.readOver captures source).map some

end Draft

def ofPattern (draft : Draft) (pattern : Pattern) : Except (Stop Failure) Rule :=
  match draft.defect? pattern with
  | some defect => .error (.fault (defect.failure draft.id))
  | none => do
    let predicate ← draft.readCondition pattern.captures
    return { id := draft.id, pattern, message := draft.message, severity := draft.severity, predicate,
             primary := draft.primary, secondary := draft.secondary, description := draft.description,
             tags := draft.tags, defect := messageDefect? pattern.captures draft.message }

def grammarFor (grammar : Option Grammar) (draft : Draft) : Except (Stop Failure) Grammar :=
  if draft.id.isEmpty then .error (.fault (Defect.emptyId.failure draft.id))
  else
    match grammar with
    | some grammar => .ok grammar
    | none => .error (.fault (Defect.noGrammar.failure draft.id))

def compile (grammar : Option Grammar) (draft : Draft) (given : Pattern.Given) : Except (Stop Failure) Rule := do
  ofPattern draft (← Pattern.compileGiven (← grammarFor grammar draft) given)

end Rule

end TreeLint
