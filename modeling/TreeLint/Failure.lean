import TreeLint.Code
import TreeLint.Sexp.Reader
import TreeLint.Span

/-!
# Failures

A failure ends the reading or checking of one grammar, pattern, rule or predicate. It carries a message, a code, the
place in the text at fault where that is known, and the name of the thing that failed.

A `Problem` is what a source has wrong with it: it is recorded on the tree of the source and ends nothing.
-/

namespace TreeLint

inductive Failure.Subject where
  | unspecified
  | grammar (name : String)
  | grammarText
  | pattern (source : String)
  | rule (id : String)
  | ruleText (id : String)
  | predicate
  deriving DecidableEq, Repr

def Failure.Subject.code : Failure.Subject → Code
  | unspecified | grammar _ => .invalidGrammar
  | grammarText => .grammarText
  | pattern _ => .patternText
  | rule _ => .invalidRule
  | ruleText _ => .ruleText
  | predicate => .predicateRuntime

structure Failure where
  subject : Failure.Subject
  message : String
  code : Code := subject.code
  span : Option Span := none
  deriving DecidableEq, Repr

namespace Failure

def text (failure : Failure) : String :=
  let place := match failure.span with
    | some span => span.text ++ ": "
    | none => ""
  place ++ failure.message ++ " [" ++ failure.code.text ++ "]"

def ofSexp (subject : Subject) (fault : Sexp.Fault) : Failure :=
  { subject, message := fault.message }

end Failure

structure Problem where
  span : Span
  message : String
  code : Code := .unexpectedToken
  expected : List String := []
  terminal : Bool := false
  lexeme : Option Text := none
  deriving DecidableEq, Repr

def Problem.text (problem : Problem) : String :=
  problem.span.text ++ ": " ++ problem.code.phase.text ++ " error: " ++ problem.message ++
    " [" ++ problem.code.text ++ "]"

end TreeLint
