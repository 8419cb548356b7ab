import TreeLint.Rule.Basic

/-!
# Reading rules

A rule is written as a form `(rule <id> (<field> <value> ...) ...)`. The fields `pattern` and `message` are required,
and `severity`, `where`, `primary`, `description`, `secondary` and `tags` may be left out. A field with one value is
given once only; of a field with several values the last one counts.

`Rule.load` reads all rules of a text. A rule that fails is reported and left out, and so is a rule whose name an
earlier rule has.
-/

namespace TreeLint

namespace Rule

inductive Field where
  | pattern
  | message
  | severity
  | condition
  | primary
  | description
  deriving DecidableEq, Repr

def Field.name : Field → String
  | pattern => "pattern"
  | message => "message"
  | severity => "severity"
  | condition => "where"
  | primary => "primary"
  | description => "description"

def Field.ofName? (name : String) : Option Field :=
  [pattern, message, severity, condition, primary, description].find? (·.name == name)

inductive ListField where
  | secondary
  | tags
  deriving DecidableEq, Repr

def ListField.name : ListField → String
  | secondary => "secondary"
  | tags => "tags"

def ListField.ofName? (name : String) : Option ListField :=
  [secondary, tags].find? (·.name == name)

inductive Fault where
  | notRule (form : Sexp)
  | notId (form : Sexp)
  | notSingle (id : String) (field : Field)
  | repeated (id : String) (field : Field)
  | unknownField (id : String) (form : Sexp)
  | missing (id : String) (field : Field)
  | notPattern (id : String)
  | notText (id field : String) (form : Sexp)
  | duplicateId (id : String)
  deriving Repr

namespace Fault

def id : Fault → String
  | notRule _ | notId _ => ""
  | notSingle id _ | repeated id _ | unknownField id _ | missing id _ | notPattern id | notText id _ _
  | duplicateId id => id

def message : Fault → String
  | notRule form => "expected (rule <id> ...), got " ++ form.text
  | notId form => "expected a rule id, got " ++ form.text
  | notSingle id field => "rule " ++ quoted id ++ ": (" ++ field.name ++ " ...) takes exactly one value"
  | repeated id field => "rule " ++ quoted id ++ ": duplicate (" ++ field.name ++ " ...)"
  | unknownField id form => "rule " ++ quoted id ++ ": unknown field " ++ form.text
  | missing id field => "rule " ++ quoted id ++ ": missing (" ++ field.name ++ " ...)"
  | notPattern id => "rule " ++ quoted id ++ ": (pattern ...) expects a string or a form"
  | notText id field form =>
    "rule " ++ quoted id ++ ": (" ++ field ++ " ...) expects a string or symbol, got " ++ form.text
  | duplicateId id => "duplicate rule id " ++ quoted id

def failure (fault : Fault) : Failure :=
  { subject := .ruleText fault.id, message := fault.message }

end Fault

structure Fields where
  single : List (Field × Sexp) := []
  secondary : List String := []
  tags : List String := []
  deriving Inhabited

def plainText? : Sexp → Option String
  | .list _ => none
  | .symbol name => some name
  | .string value => some value
  | .number value => some value.text

def textOf (id field : String) (form : Sexp) : Except Fault String :=
  match plainText? form with
  | some text => .ok text
  | none => .error (.notText id field form)

def Fields.add (id : String) (fields : Fields) (form : Sexp) : Except Fault Fields := do
  let values := match form with
    | .list items => items.tail
    | _ => []
  match Field.ofName? form.head, ListField.ofName? form.head with
  | some field, _ =>
    match values with
    | [value] =>
      if (fields.single.lookup field).isSome then throw (.repeated id field)
      return { fields with single := fields.single ++ [(field, value)] }
    | _ => throw (.notSingle id field)
  | none, some .secondary => return { fields with secondary := ← values.mapM (textOf id ListField.secondary.name) }
  | none, some .tags => return { fields with tags := ← values.mapM (textOf id ListField.tags.name) }
  | none, none => throw (.unknownField id form)

def Fields.text? (id : String) (fields : Fields) (field : Field) : Except Fault (Option String) :=
  match fields.single.lookup field with
  | some form => (textOf id field.name form).map some
  | none => .ok none

def Fields.require (id : String) (fields : Fields) (field : Field) : Except Fault Sexp :=
  match fields.single.lookup field with
  | some form => .ok form
  | none => .error (.missing id field)

def Fields.draft (id : String) (fields : Fields) : Except Fault (Draft × Pattern.Given) := do
  let pattern ← fields.require id .pattern
  let message ← fields.require id .message
  let some given := Pattern.Given.ofSexp? pattern | throw (.notPattern id)
  let severity ← fields.text? id .severity
  let condition ← fields.text? id .condition
  let primary ← fields.text? id .primary
  let description ← fields.text? id .description
  let message ← textOf id Field.message.name message
  return ({ id, message, severity := severity.getD "warning", condition, primary, secondary := fields.secondary,
            description := description.getD "", tags := fields.tags }, given)

def draftOf (form : Sexp) : Except Fault (Draft × Pattern.Given) := do
  match form with
  | .list (.symbol "rule" :: name :: parts) =>
    match plainText? name with
    | none => throw (.notId name)
    | some id => (← parts.foldlM (Fields.add id) {}).draft id
  | _ => throw (.notRule form)

def ofSexp (grammar : Grammar) (form : Sexp) : Except (Stop Failure) Rule := do
  let (draft, given) ← (draftOf form).mapError (.fault ∘ Fault.failure)
  compile (some grammar) draft given

structure Loaded where
  rules : List Rule := []
  failures : List Failure := []

/-- Adds the rule that a form describes, unless it fails or its name is taken. -/
def Loaded.add (grammar : Grammar) (loaded : Loaded) (form : Sexp) : Except Breakdown Loaded :=
  match ofSexp grammar form with
  | .error (.breakdown breakdown) => .error breakdown
  | .error (.fault failure) => .ok { loaded with failures := loaded.failures ++ [failure] }
  | .ok rule =>
    if loaded.rules.any (·.id == rule.id) then
      .ok { loaded with failures := loaded.failures ++ [(Fault.duplicateId rule.id).failure] }
    else .ok { loaded with rules := loaded.rules ++ [rule] }

def loadForms (grammar : Grammar) (forms : List Sexp) : Except Breakdown Loaded :=
  forms.foldlM (Loaded.add grammar) {}

def load (grammar : Grammar) (text : String) : Except Breakdown Loaded :=
  match Sexp.readAll text with
  | .ok forms => loadForms grammar forms
  | .error fault => .ok { failures := [Failure.ofSexp (.ruleText "") fault] }

end Rule

end TreeLint
