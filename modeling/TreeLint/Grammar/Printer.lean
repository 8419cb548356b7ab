import TreeLint.Grammar.Build

/-!
# Grammars as shown to people
-/

namespace TreeLint

namespace Grammar

mutual

def Symbol.show : Symbol → String
  | .ref name => name
  | .literal text => quoted text
  | .group quantifier symbols => "(" ++ showSymbols symbols ++ ")" ++ quantifier.mark

def showSymbols : List Symbol → String
  | [] => ""
  | [symbol] => symbol.show
  | symbol :: symbols => symbol.show ++ " " ++ showSymbols symbols

end

def emptyMark : String := "ε"

def orEmptyMark (body : String) : String :=
  if body.isEmpty then emptyMark else body

def Alternative.show (alternative : Alternative) : String :=
  let body := orEmptyMark (showSymbols alternative.symbols)
  if alternative.assoc == .left then body else body ++ " %right"

def FlatAlternative.show (alternative : FlatAlternative) : String :=
  "<" ++ toString alternative.id ++ ": " ++ alternative.lhs ++ " -> " ++
    orEmptyMark (" ".intercalate (alternative.symbols.map (·.name))) ++ ">"

def Production.lines (production : Production) : List String :=
  ("  " ++ production.name ++ (if production.transparent then " :transparent" else "") ++
      (if production.inline then " :inline" else "")) ::
    production.alternatives.map fun alternative => "    | " ++ alternative.show

def TokenRule.line (rule : TokenRule) : String :=
  "  token " ++ rule.name ++ " /" ++ rule.pattern ++ "/ priority " ++ toString rule.priority ++
    (if rule.trivia then " trivia" else "")

def pretty (grammar : Grammar) : String :=
  "\n".intercalate
    (("grammar " ++ grammar.name ++ " (start " ++ grammar.start ++ ")") ::
      grammar.productions.flatMap (·.lines) ++
      ((grammar.tokenRules.filter (!·.literal)).map (·.line)))

def summary (grammar : Grammar) : String :=
  "Grammar(" ++ quoted grammar.name ++ ", productions=" ++ toString grammar.productions.length ++ ", tokens=" ++
    toString grammar.scanners.length ++ ")"

end Grammar

end TreeLint
