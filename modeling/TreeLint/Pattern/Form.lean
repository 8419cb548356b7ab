import TreeLint.Pattern.Basic

/-!
# Patterns as S-expressions

A pattern may be written as a form: a symbol or a string is a kind, a wildcard, an ellipsis, a variable or a text; a
list starts with one of the words `bind`, `or`, `not`, `deep`, `re`, `where`, `seq` and `kind`, or with the name of a
kind.
-/

namespace TreeLint

namespace Pattern

inductive FormFault where
  | notPattern
  | malformedBind
  | emptyAlternation
  | malformedUnary (word : String)
  | malformedRegex
  | malformedGuard
  | nestedSiblings
  | malformedKind
  | noKindName
  deriving DecidableEq, Repr

def FormFault.detail : FormFault → String
  | notPattern => "expected a pattern"
  | malformedBind => "expected (bind name pattern)"
  | emptyAlternation => "empty alternation"
  | malformedUnary word => "expected (" ++ word ++ " pattern)"
  | malformedRegex => "expected (re \"regex\")"
  | malformedGuard => "expected (where pattern \"predicate\")"
  | nestedSiblings => "(seq ...) is only allowed at the top of a pattern"
  | malformedKind => "expected (kind NAME child ...)"
  | noKindName => "expected a kind name at the head of"

def FormFault.failure (fault : FormFault) (form : Sexp) : Failure :=
  { subject := .pattern form.text, message := fault.detail ++ ": " ++ form.text, code := .malformedPattern }

def FormFault.fail (fault : FormFault) (form : Sexp) : Except (Stop Failure) α :=
  .error (.fault (fault.failure form))

def shapeOfSymbol (name : String) : Shape :=
  if name == "_" then .wildcard
  else if name == "..." then .ellipsis
  else
    match name.toList with
    | '$' :: c :: rest => .metavar (String.ofList (c :: rest))
    | _ => .kind name

mutual

/-- The shape of a form. Only at the top may it be a run of siblings. -/
def shapeOf (top : Bool) (form : Sexp) : Except (Stop Failure) Shape :=
  match form with
  | .symbol name => .ok (shapeOfSymbol name)
  | .string value => .ok (.text value)
  | .number _ => FormFault.notPattern.fail form
  | .list [] => FormFault.notPattern.fail form
  | .list (first :: arguments) =>
    match first with
    | .symbol "bind" =>
      match arguments with
      | [.symbol name, inner] => do return .capture name (← shapeOf false inner)
      | _ => FormFault.malformedBind.fail form
    | .symbol "or" =>
      if arguments.isEmpty then FormFault.emptyAlternation.fail form
      else do return .oneOf (← shapesOf arguments)
    | .symbol "not" =>
      match arguments with
      | [inner] => do return .negation (← shapeOf false inner)
      | _ => (FormFault.malformedUnary "not").fail form
    | .symbol "deep" =>
      match arguments with
      | [inner] => do return .deep (← shapeOf false inner)
      | _ => (FormFault.malformedUnary "deep").fail form
    | .symbol "re" =>
      match arguments with
      | [.string source] => .ok (.regex source)
      | _ => FormFault.malformedRegex.fail form
    | .symbol "where" =>
      match arguments with
      | [inner, .string predicate] => do
        let shape ← shapeOf top inner
        return .guarded shape (← Predicate.read predicate)
      | _ => FormFault.malformedGuard.fail form
    | .symbol "seq" =>
      if top then do return .siblings (← shapesOf arguments)
      else FormFault.nestedSiblings.fail form
    | .symbol "kind" =>
      match arguments with
      | .symbol name :: items => do return .node name (← shapesOf items)
      | _ => FormFault.malformedKind.fail form
    | .symbol name =>
      if name.isEmpty then FormFault.noKindName.fail form
      else do return .node name (← shapesOf arguments)
    | _ => FormFault.noKindName.fail form

def shapesOf : List Sexp → Except (Stop Failure) (List Shape)
  | [] => .ok []
  | form :: forms => do
    let shape ← shapeOf false form
    let shapes ← shapesOf forms
    return shape :: shapes

end

end Pattern

end TreeLint
