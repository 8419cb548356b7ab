import TreeLint.Failure
import TreeLint.Grammar.Basic

/-!
# Defects of grammar descriptions

What can be wrong with a description, the code of each defect and the message about it.
-/

namespace TreeLint

namespace Grammar

inductive Defect where
  | noProductions
  | invalidProductionName (name : String)
  | reservedProductionName (name : String)
  | duplicateProduction (name : String)
  | undefinedStart (name : String)
  | emptyLiteral
  | unknownQuantifier (mark : String)
  | emptyGroup
  | invalidTokenName (name : String)
  | duplicateTokenRule (name : String)
  | reservedTokenName (name : String)
  | sharedName (name : String)
  | invalidTokenPattern (name fault : String)
  | conflictingTokenRules (first second : String) (priority : Int)
  | reservedLiteral (text : String)
  | literalNamesProduction (text : String)
  | undefinedCommentKind (name : String)
  | invalidDirective (fault : String)
  | unknownAssociativity (word : String)
  | undefinedReference (owner name : String)
  deriving DecidableEq, Repr

namespace Defect

def detail : Defect → String
  | noProductions => "grammar defines no productions"
  | invalidProductionName name => "invalid production name " ++ quoted name
  | reservedProductionName name => "production name " ++ quoted name ++ " is reserved"
  | duplicateProduction name => "duplicate production " ++ quoted name
  | undefinedStart name => "start symbol " ++ quoted name ++ " is not a production"
  | emptyLiteral => "empty literal terminal"
  | unknownQuantifier mark => "unknown quantifier " ++ quoted mark
  | emptyGroup => "empty quantified group"
  | invalidTokenName name => "invalid token name " ++ quoted name
  | duplicateTokenRule name => "duplicate token rule " ++ quoted name
  | reservedTokenName name => "token name " ++ quoted name ++ " is reserved"
  | sharedName name => quoted name ++ " names both a production and a token rule"
  | invalidTokenPattern name fault => "token rule " ++ quoted name ++ " has an invalid pattern: " ++ fault
  | conflictingTokenRules first second priority =>
    "token rules " ++ quoted first ++ " and " ++ quoted second ++ " have the same pattern and priority " ++
      toString priority
  | reservedLiteral text => "literal " ++ quoted text ++ " is a reserved kind"
  | literalNamesProduction text => "literal " ++ quoted text ++ " collides with a production name"
  | undefinedCommentKind name => "suppression comment kind " ++ quoted name ++ " is not a token rule"
  | invalidDirective fault => "invalid suppression directive: " ++ fault
  | unknownAssociativity word => "unknown associativity " ++ quoted word
  | undefinedReference owner name =>
    "production " ++ quoted owner ++ " references undefined nonterminal " ++ quoted name

def code : Defect → Code
  | noProductions | invalidProductionName _ | emptyLiteral | unknownQuantifier _ | emptyGroup | invalidTokenName _
  | literalNamesProduction _ | unknownAssociativity _ => .invalidGrammar
  | reservedProductionName _ | reservedTokenName _ | reservedLiteral _ => .reservedName
  | duplicateProduction _ | sharedName _ => .duplicateProduction
  | undefinedStart _ | undefinedReference _ _ => .undefinedNonterminal
  | duplicateTokenRule _ => .duplicateTokenRule
  | invalidTokenPattern _ _ | invalidDirective _ => .invalidTokenPattern
  | conflictingTokenRules _ _ _ => .conflictingTokenRules
  | undefinedCommentKind _ => .undefinedTerminal

def failure (grammar : String) (defect : Defect) : Failure :=
  { subject := .grammar grammar, message := "grammar " ++ quoted grammar ++ ": " ++ defect.detail, code := defect.code }

end Defect

end Grammar

end TreeLint
