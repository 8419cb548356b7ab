import TreeLint.Grammar.Build

/-!
# Reading grammars

The text of a grammar is one form `(grammar name …)` with these parts, in any order:

* `(start name)` names the start symbol;
* `(token NAME "regex" :priority n :trivia)` is a token rule;
* `(rule name :transparent :inline alternative …)` is a production, where an alternative is a list of symbols with
  `:right` for right associativity, or one symbol alone; a group is a list that starts with `?`, `*` or `+`;
* `(suppress (comments NAME …) (directive "regex"))` tells how comments switch rules off.
-/

namespace TreeLint

namespace Grammar

inductive TextFault where
  | notOneForm (count : Nat)
  | notSymbol (form : Sexp)
  | notList (form : Sexp)
  | notForm (tag : String) (form : Sexp)
  | tooShort (least : Nat) (form : Sexp)
  | notGrammar (head : String)
  | unknownForm (head : String)
  | keywordInSequence (keyword : String)
  | notGroup (form : Sexp)
  | emptyGroup (form : Sexp)
  | unexpected (form : Sexp)
  | unknownAlternativeOptions (options : List String) (form : Sexp)
  | malformedToken (form : Sexp)
  | priorityNotInteger (form : Sexp)
  | unknownRuleOptions (options : List String) (name : String)
  | noAlternatives (name : String)
  | malformedDirective (form : Sexp)
  | unknownSuppressOption (form : Sexp)

def quotedList (words : List String) : String :=
  "[" ++ ", ".intercalate (words.map quoted) ++ "]"

def TextFault.message : TextFault → String
  | notOneForm count => "expected exactly one (grammar ...) form, found " ++ toString count
  | notSymbol form => "expected a symbol, got " ++ form.text
  | notList form => "expected a list, got " ++ form.text
  | notForm tag form => "expected a list (" ++ tag ++ " ...), got " ++ form.text
  | tooShort least form => "form too short: expected at least " ++ toString least ++ " elements in " ++ form.text
  | notGrammar head => "expected (grammar <name> ...), got (" ++ head ++ " ...)"
  | unknownForm head => "unknown grammar form (" ++ head ++ " ...)"
  | keywordInSequence keyword => "unexpected keyword " ++ keyword ++ " inside a sequence"
  | notGroup form => "expected a group (? ...), (* ...) or (+ ...), got " ++ form.text
  | emptyGroup form => "empty group " ++ form.text
  | unexpected form => "unexpected " ++ form.text ++ " in a rule"
  | unknownAlternativeOptions options form =>
    "unknown alternative option(s) " ++ quotedList options ++ " in " ++ form.text
  | malformedToken form => "expected (token NAME \"regex\" ...), got " ++ form.text
  | priorityNotInteger form => "token priority must be an integer in " ++ form.text
  | unknownRuleOptions options name => "unknown rule option(s) " ++ quotedList options ++ " on " ++ quoted name
  | noAlternatives name => "rule " ++ quoted name ++ " has no alternatives"
  | malformedDirective form => "expected (directive \"regex\"), got " ++ form.text
  | unknownSuppressOption form => "unknown suppress option " ++ form.text

def TextFault.failure (fault : TextFault) : Failure :=
  { subject := .grammarText, message := fault.message }

inductive KeywordValue where
  | flag
  | form (value : Sexp)

structure Parts where
  positional : List Sexp := []
  keywords : List (String × KeywordValue) := []

def keyword? : Sexp → Option String
  | .symbol name => if name.startsWith ":" then some (name.drop 1).toString else none
  | _ => none

def Parts.addItem (parts : Parts) (item : Sexp) : Parts :=
  { parts with positional := item :: parts.positional }

def Parts.addKeyword (parts : Parts) (key : String) (value : KeywordValue) : Parts :=
  { parts with keywords := parts.keywords ++ [(key, value)] }

/-- Separates keywords from the other items. The keyword `:priority` takes the item after it unless that is one too. -/
def splitKeywords : List Sexp → Parts
  | [] => {}
  | [item] =>
    match keyword? item with
    | none => Parts.addItem {} item
    | some key => Parts.addKeyword {} key .flag
  | item :: next :: rest =>
    match keyword? item with
    | none => (splitKeywords (next :: rest)).addItem item
    | some key =>
      if key == "priority" && (keyword? next).isNone then (splitKeywords rest).addKeyword key (.form next)
      else (splitKeywords (next :: rest)).addKeyword key .flag

def Parts.has (parts : Parts) (key : String) : Bool :=
  (parts.keywords.lookup key).isSome

def Parts.unknown (parts : Parts) (known : List String) : List String :=
  (((parts.keywords.map (·.1)).filter (!known.contains ·)).eraseDups).mergeSort (· ≤ ·)

def symbolName : Sexp → Except TextFault String
  | .symbol name => .ok name
  | form => .error (.notSymbol form)

def groupMarks : List String := ["?", "*", "+"]

mutual

def readSymbol : Sexp → Except TextFault Symbol
  | .symbol name => if name.startsWith ":" then .error (.keywordInSequence name) else .ok (.ref name)
  | .string text => .ok (.literal text)
  | .list items =>
    match items with
    | .symbol mark :: body =>
      if !groupMarks.contains mark then .error (.notGroup (.list (.symbol mark :: body)))
      else if body.isEmpty then .error (.emptyGroup (.list (.symbol mark :: body)))
      else do return .group (Quantifier.ofMark mark) (← readSymbols body)
    | items => .error (.notGroup (.list items))
  | .number value => .error (.unexpected (.number value))

def readSymbols : List Sexp → Except TextFault (List Symbol)
  | [] => .ok []
  | form :: forms => do return (← readSymbol form) :: (← readSymbols forms)

end

def readAlternative (form : Sexp) : Except TextFault Alternative :=
  match form with
  | .list items =>
    if groupMarks.contains form.head then do return { symbols := [← readSymbol form] }
    else do
      let parts := splitKeywords items
      let unknown := parts.unknown ["right", "left"]
      if !unknown.isEmpty then throw (.unknownAlternativeOptions unknown form)
      return { symbols := ← readSymbols parts.positional, assoc := if parts.has "right" then .right else .left }
  | _ => do return { symbols := [← readSymbol form] }

def readAlternatives : List Sexp → Except TextFault (List Alternative)
  | [] => .ok []
  | form :: forms => do return (← readAlternative form) :: (← readAlternatives forms)

def readToken (form : Sexp) (items : List Sexp) : Except TextFault TokenRule := do
  let parts := splitKeywords items
  match parts.positional with
  | [name, .string pattern] =>
    let priority ← match parts.keywords.lookup "priority" with
      | none => pure 0
      | some (.form (.number (.int priority))) => pure priority
      | some _ => throw (.priorityNotInteger form)
    return { name := ← symbolName name, pattern, priority, trivia := parts.has "trivia" }
  | _ => throw (.malformedToken form)

def readProduction (form : Sexp) (items : List Sexp) : Except TextFault Production :=
  match items with
  | [] => .error (.tooShort 2 form)
  | name :: items => do
    let name ← symbolName name
    let parts := splitKeywords items
    let unknown := parts.unknown ["transparent", "inline"]
    if !unknown.isEmpty then throw (.unknownRuleOptions unknown name)
    if parts.positional.isEmpty then throw (.noAlternatives name)
    let alternatives ← readAlternatives parts.positional
    return { name, alternatives, transparent := parts.has "transparent", inline := parts.has "inline" }

def readSuppression (suppression : Suppression) : List Sexp → Except TextFault Suppression
  | [] => .ok suppression
  | part :: parts => do
    match part with
    | .list [] => throw (.tooShort 1 part)
    | .list (.symbol "comments" :: names) =>
      readSuppression { suppression with commentKinds := ← names.mapM symbolName } parts
    | .list [.symbol "directive", .string directive] => readSuppression { suppression with directive } parts
    | .list (.symbol "directive" :: _) => throw (.malformedDirective part)
    | .list _ => throw (.unknownSuppressOption part)
    | _ => throw (.notForm "comments|directive" part)

def headText (form : Sexp) (first : Sexp) : String :=
  if form.head.isEmpty then first.text else form.head

def readParts (description : Description) : List Sexp → Except TextFault Description
  | [] => .ok description
  | form :: forms => do
    match form with
    | .list [] => throw (.tooShort 1 form)
    | .list (first :: items) =>
      if form.head == "start" then
        match items with
        | [] => throw (.tooShort 2 form)
        | name :: _ => readParts { description with start := ← symbolName name } forms
      else if form.head == "token" then
        let rule ← readToken form items
        readParts { description with tokens := description.tokens ++ [rule] } forms
      else if form.head == "rule" then
        let production ← readProduction form items
        readParts { description with productions := description.productions ++ [production] } forms
      else if form.head == "suppress" then
        readParts { description with suppression := ← readSuppression {} items } forms
      else throw (.unknownForm (headText form first))
    | _ => throw (.notList form)

def readDescription (form : Sexp) : Except TextFault Description :=
  match form with
  | .list (first :: name :: parts) => do
    if form.head != "grammar" then throw (.notGrammar (headText form first))
    readParts { name := ← symbolName name, productions := [] } parts
  | .list _ => .error (.tooShort 2 form)
  | _ => .error (.notForm "grammar" form)

def read (text : String) : Except (Stop Failure) Grammar := do
  let forms ← (Sexp.readAll text).mapError (.fault ∘ Failure.ofSexp .grammarText)
  match forms with
  | [form] =>
    let description ← (readDescription form).mapError (.fault ∘ TextFault.failure)
    build description
  | _ => throw (.fault (TextFault.notOneForm forms.length).failure)

end Grammar

end TreeLint
