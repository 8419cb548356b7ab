import TreeLint.Grammar.Defect
import TreeLint.Grammar.Nullable
import TreeLint.Index
import TreeLint.Regex.Compile
import TreeLint.Regex.Match

/-!
# Grammars

A grammar is a description that has been checked, together with the tables that the scanner and the parser read: the
compiled token rules, the flat alternatives, the nullable nonterminals and the kinds.

* `Grammar.build` checks a description and builds its tables; of several defects it reports the first in a fixed order;
* literal terminals become token rules of priority 1, ahead of the others and in order of appearance;
* every kind has a number: reserved kinds first, then productions, then tokens.
-/

namespace TreeLint

structure Scanner where
  rule : Grammar.TokenRule
  regex : Regex

structure Grammar where
  name : String
  productions : List Grammar.Production
  start : String
  suppression : Grammar.Suppression
  scanners : List Scanner
  directive : Regex
  alternatives : Array Grammar.FlatAlternative
  nullTable : Grammar.NullTable
  kinds : List String

namespace Grammar

/-! ## Queries -/

/-- The token rules, literals first. -/
def tokenRules (grammar : Grammar) : List TokenRule :=
  grammar.scanners.map (·.rule)

def production? (grammar : Grammar) (name : String) : Option Production :=
  grammar.productions.find? (·.name == name)

def tokenRule? (grammar : Grammar) (name : String) : Option TokenRule :=
  grammar.tokenRules.find? (·.name == name)

def hasKind (grammar : Grammar) (kind : String) : Bool :=
  grammar.kinds.contains kind

def kindId? (grammar : Grammar) (kind : String) : Option Nat :=
  grammar.kinds.idxOf? kind

/-- The number of a kind; unknown kinds get the first number that is free. -/
def kindId (grammar : Grammar) (kind : String) : Nat :=
  grammar.kinds.idxOf kind

def kindName? (grammar : Grammar) (id : Int) : Option String := do
  grammar.kinds[← resolveIndex? grammar.kinds.length id]?

def isTokenKind (grammar : Grammar) (kind : String) : Bool :=
  (grammar.tokenRule? kind).isSome || kind == unknownKind || kind == whitespaceKind

def triviaKinds (grammar : Grammar) : List String :=
  (whitespaceKind :: (grammar.tokenRules.filter (·.trivia)).map (·.name)).eraseDups

def isTrivia (grammar : Grammar) (kind : String) : Bool :=
  kind == whitespaceKind || grammar.tokenRules.any fun rule => rule.trivia && rule.name == kind

def isComment (grammar : Grammar) (kind : String) : Bool :=
  grammar.suppression.commentKinds.contains kind

def alternativesOf (grammar : Grammar) (name : String) : List FlatAlternative :=
  grammar.alternatives.toList.filter (·.lhs == name)

def isNullable (grammar : Grammar) (name : String) : Bool :=
  (grammar.nullTable.lookup name).isSome

/-- Whether a node of a nonterminal always gives way to its children. Nonterminals that stand for groups do. -/
def isInline (grammar : Grammar) (name : String) : Bool :=
  match grammar.production? name with
  | some production => production.inline
  | none => true

def isTransparent (grammar : Grammar) (name : String) : Bool :=
  match grammar.production? name with
  | some production => production.transparent
  | none => false

def inlineNames (grammar : Grammar) : List String :=
  ((grammar.productions.map (·.name) ++ grammar.alternatives.toList.map (·.lhs)).eraseDups).filter grammar.isInline

def transparentNames (grammar : Grammar) : List String :=
  (grammar.productions.map (·.name)).filter grammar.isTransparent

def description (grammar : Grammar) : Description :=
  { name := grammar.name, productions := grammar.productions, tokens := grammar.tokenRules.filter (!·.literal),
    start := grammar.start, suppression := grammar.suppression }

/-! ## Checks -/

def startsName (c : Char) : Bool :=
  c.isAlpha || c == '_'

def inName (c : Char) : Bool :=
  c.isAlphanum || c == '_' || c == '-'

/-- Whether characters form a name. One newline may follow. -/
def isNameChars : List Char → Bool
  | [] => false
  | first :: rest =>
    startsName first && (rest.all inName || (rest.getLast? == some '\n' && rest.dropLast.all inName))

def isName (name : String) : Bool :=
  isNameChars name.toList

def Defect.unless (defect : Defect) (fine : Bool) : Except Defect Unit :=
  if fine then .ok () else .error defect

def checkProductionNames (earlier : List String) : List Production → Except Defect Unit
  | [] => .ok ()
  | production :: productions => do
    let name := production.name
    Defect.unless (.invalidProductionName name) (isName name)
    Defect.unless (.reservedProductionName name) (!reservedKinds.contains name)
    Defect.unless (.duplicateProduction name) (!earlier.contains name)
    checkProductionNames (name :: earlier) productions

mutual

def checkShape : Symbol → Except Defect Unit
  | .ref _ => .ok ()
  | .literal text => Defect.unless .emptyLiteral (!text.isEmpty)
  | .group quantifier symbols => do
    match quantifier with
    | .other mark => throw (.unknownQuantifier mark)
    | _ => pure ()
    Defect.unless .emptyGroup (!symbols.isEmpty)
    checkShapes symbols

def checkShapes : List Symbol → Except Defect Unit
  | [] => .ok ()
  | symbol :: symbols => do
    checkShape symbol
    checkShapes symbols

end

mutual

def literalsOfSymbol : Symbol → List String
  | .ref _ => []
  | .literal text => [text]
  | .group _ symbols => literalsOfSymbols symbols

def literalsOfSymbols : List Symbol → List String
  | [] => []
  | symbol :: symbols => literalsOfSymbol symbol ++ literalsOfSymbols symbols

end

def allSymbols (productions : List Production) : List Symbol :=
  productions.flatMap fun production => production.alternatives.flatMap (·.symbols)

def literals (productions : List Production) : List String :=
  (literalsOfSymbols (allSymbols productions)).eraseDups

def literalRule (text : String) : TokenRule :=
  { name := text, pattern := Regex.escape text, priority := 1, literal := true }

def checkTokenNames (names : List String) (earlier : List String) : List TokenRule → Except Defect Unit
  | [] => .ok ()
  | rule :: rules => do
    let name := rule.name
    Defect.unless (.invalidTokenName name) (isName name)
    Defect.unless (.duplicateTokenRule name) (!earlier.contains name)
    Defect.unless (.reservedTokenName name) (!reservedKinds.contains name || name == whitespaceKind)
    Defect.unless (.sharedName name) (!names.contains name)
    checkTokenNames names (name :: earlier) rules

def compileRules (earlier : List TokenRule) : List TokenRule → Except (Stop Defect) (List Scanner)
  | [] => .ok []
  | rule :: rules => do
    let regex ← (Regex.readString rule.pattern).mapError (Stop.map (Defect.invalidTokenPattern rule.name))
    match earlier.find? fun other => other.pattern == rule.pattern && other.priority == rule.priority with
    | some other => throw (.fault (.conflictingTokenRules other.name rule.name rule.priority))
    | none => pure ()
    return { rule, regex } :: (← compileRules (rule :: earlier) rules)

def checkLiterals (names : List String) : List String → Except Defect Unit
  | [] => .ok ()
  | text :: texts => do
    Defect.unless (.reservedLiteral text) (!reservedKinds.contains text)
    Defect.unless (.literalNamesProduction text) (!names.contains text)
    checkLiterals names texts

def checkCommentKinds (tokens : List String) : List String → Except Defect Unit
  | [] => .ok ()
  | kind :: kinds => do
    Defect.unless (.undefinedCommentKind kind) (tokens.contains kind)
    checkCommentKinds tokens kinds

mutual

def checkReference (isDefined : String → Bool) (owner : String) : Symbol → Except Defect Unit
  | .literal _ => .ok ()
  | .ref name => Defect.unless (.undefinedReference owner name) (isDefined name)
  | .group _ symbols => checkReferences isDefined owner symbols

def checkReferences (isDefined : String → Bool) (owner : String) : List Symbol → Except Defect Unit
  | [] => .ok ()
  | symbol :: symbols => do
    checkReference isDefined owner symbol
    checkReferences isDefined owner symbols

end

def checkAlternatives (isDefined : String → Bool) (owner : String) : List Alternative → Except Defect Unit
  | [] => .ok ()
  | alternative :: alternatives => do
    match alternative.assoc with
    | .other word => throw (.unknownAssociativity word)
    | _ => pure ()
    checkReferences isDefined owner alternative.symbols
    checkAlternatives isDefined owner alternatives

def checkProductions (isDefined : String → Bool) : List Production → Except Defect Unit
  | [] => .ok ()
  | production :: productions => do
    checkAlternatives isDefined production.name production.alternatives
    checkProductions isDefined productions

/-! ## Building -/

def Description.startName (description : Description) : String :=
  if description.start.isEmpty then
    match description.productions with
    | [] => ""
    | production :: _ => production.name
  else description.start

def kindTable (productions : List String) (tokens : List String) : List String :=
  reservedKinds ++ productions ++ tokens.filter (!reservedKinds.contains ·)

def check (description : Description) : Except (Stop Defect) Grammar := do
  let productions := description.productions
  Defect.unless .noProductions (!productions.isEmpty)
  checkProductionNames [] productions
  let names := productions.map (·.name)
  let start := description.startName
  Defect.unless (.undefinedStart start) (names.contains start)
  checkShapes (allSymbols productions)
  let literals := literals productions
  checkTokenNames names literals description.tokens
  let rules := literals.map literalRule ++ description.tokens
  let scanners ← compileRules [] rules
  checkLiterals names literals
  let tokens := rules.map (·.name)
  checkCommentKinds tokens description.suppression.commentKinds
  let directive ← (Regex.readString description.suppression.directive).mapError (Stop.map Defect.invalidDirective)
  checkProductions (fun name => tokens.contains name || names.contains name) productions
  let alternatives := flatAlternatives tokens.contains productions
  return {
    name := description.name, productions, start, suppression := description.suppression, scanners, directive,
    alternatives := alternatives.toArray, nullTable := NullTable.ofAlternatives alternatives,
    kinds := kindTable names tokens }

def build (description : Description) : Except (Stop Failure) Grammar :=
  (check description).mapError (Stop.map (Defect.failure description.name))

end Grammar

end TreeLint
