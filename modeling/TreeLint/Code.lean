import TreeLint.Text.Quoted

/-!
# Error codes

Every kind of error has a number, the phase of the work it belongs to and a level. The code of an error is its number
with at least four digits behind the letters `CL`.
-/

namespace TreeLint

inductive Phase where
  | lexical
  | syntactic
  | grammar
  | pattern
  | rule
  | matching
  deriving DecidableEq, Repr

def Phase.text : Phase → String
  | lexical => "lexical"
  | syntactic => "syntax"
  | grammar => "grammar"
  | pattern => "pattern"
  | rule => "rule"
  | matching => "match"

inductive Code where
  | unmatchedInput
  | unexpectedToken
  | unexpectedEnd
  | undefinedNonterminal
  | duplicateProduction
  | duplicateTokenRule
  | conflictingTokenRules
  | invalidTokenPattern
  | undefinedTerminal
  | reservedName
  | invalidGrammar
  | grammarText
  | patternText
  | unknownKind
  | duplicateCapture
  | unboundCapture
  | invalidRegex
  | malformedPattern
  | undefinedTemplateCapture
  | invalidRule
  | ruleText
  | predicateText
  | predicateType
  | predicateRuntime
  deriving DecidableEq, Repr

namespace Code

def name : Code → String
  | unmatchedInput => "UNMATCHED_INPUT"
  | unexpectedToken => "UNEXPECTED_TOKEN"
  | unexpectedEnd => "UNEXPECTED_EOF"
  | undefinedNonterminal => "UNDEFINED_NONTERMINAL"
  | duplicateProduction => "DUPLICATE_PRODUCTION"
  | duplicateTokenRule => "DUPLICATE_TOKEN_RULE"
  | conflictingTokenRules => "CONFLICTING_TOKEN_RULES"
  | invalidTokenPattern => "INVALID_TOKEN_PATTERN"
  | undefinedTerminal => "UNDEFINED_TERMINAL"
  | reservedName => "RESERVED_NAME"
  | invalidGrammar => "INVALID_GRAMMAR"
  | grammarText => "GRAMMAR_SYNTAX"
  | patternText => "PATTERN_SYNTAX"
  | unknownKind => "UNKNOWN_KIND"
  | duplicateCapture => "DUPLICATE_CAPTURE"
  | unboundCapture => "UNBOUND_CAPTURE"
  | invalidRegex => "INVALID_REGEX"
  | malformedPattern => "MALFORMED_PATTERN"
  | undefinedTemplateCapture => "UNDEFINED_TEMPLATE_CAPTURE"
  | invalidRule => "INVALID_RULE"
  | ruleText => "RULE_SYNTAX"
  | predicateText => "PREDICATE_SYNTAX"
  | predicateType => "PREDICATE_TYPE"
  | predicateRuntime => "PREDICATE_RUNTIME"

def number : Code → Nat
  | unmatchedInput => 1
  | unexpectedToken => 1000
  | unexpectedEnd => 1001
  | undefinedNonterminal => 2000
  | duplicateProduction => 2001
  | duplicateTokenRule => 2002
  | conflictingTokenRules => 2003
  | invalidTokenPattern => 2004
  | undefinedTerminal => 2005
  | reservedName => 2006
  | invalidGrammar => 2007
  | grammarText => 2100
  | patternText => 3000
  | unknownKind => 3001
  | duplicateCapture => 3002
  | unboundCapture => 3003
  | invalidRegex => 3004
  | malformedPattern => 3005
  | undefinedTemplateCapture => 4000
  | invalidRule => 4001
  | ruleText => 4002
  | predicateText => 4100
  | predicateType => 4101
  | predicateRuntime => 4102

def phase : Code → Phase
  | unmatchedInput => .lexical
  | unexpectedToken | unexpectedEnd => .syntactic
  | undefinedNonterminal | duplicateProduction | duplicateTokenRule | conflictingTokenRules | invalidTokenPattern
  | undefinedTerminal | reservedName | invalidGrammar | grammarText => .grammar
  | patternText | unknownKind | duplicateCapture | unboundCapture | invalidRegex | malformedPattern => .pattern
  | undefinedTemplateCapture | invalidRule | ruleText | predicateText => .rule
  | predicateType | predicateRuntime => .matching

/-- Whether an error with this code is only a warning: predicates that fail on one match are. -/
def isWarning : Code → Bool
  | predicateType | predicateRuntime => true
  | _ => false

def severity (code : Code) : String :=
  if code.isWarning then "warning" else "error"

def format (letters : String) (number : Int) : String :=
  let digits := toString number.natAbs
  let sign := if number < 0 then "-" else ""
  letters ++ "-" ++ sign ++ String.ofList (List.replicate (4 - sign.length - digits.length) '0') ++ digits

def text (code : Code) : String :=
  format "CL" code.number

def describe (code : Code) : String :=
  let phase := if code.phase = .syntactic then "SYNTAX" else code.phase.text.toUpper
  "ErrorCode(" ++ quoted code.text ++ ", " ++ phase ++ ")"

def all : List Code :=
  [unmatchedInput, unexpectedToken, unexpectedEnd, undefinedNonterminal, duplicateProduction, duplicateTokenRule,
    conflictingTokenRules, invalidTokenPattern, undefinedTerminal, reservedName, invalidGrammar, grammarText,
    patternText, unknownKind, duplicateCapture, unboundCapture, invalidRegex, malformedPattern,
    undefinedTemplateCapture, invalidRule, ruleText, predicateText, predicateType, predicateRuntime]

end Code

end TreeLint
