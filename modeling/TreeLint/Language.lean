import TreeLint.Grammar.Reader
import TreeLint.Language.Calculator
import TreeLint.Language.Json
import TreeLint.Language.MiniJs
import TreeLint.Language.Python

/-!
# Languages with a grammar of their own

The library knows the grammars of a few languages, by name.
-/

namespace TreeLint

inductive Language where
  | calculator
  | json
  | miniJs
  | python
  deriving DecidableEq, Inhabited, Repr

namespace Language

def all : List Language :=
  [calculator, json, miniJs, python]

def name : Language → String
  | calculator => "calc"
  | json => "json"
  | miniJs => "minijs"
  | python => "python"

def ofName? (name : String) : Option Language :=
  all.find? (·.name == name)

def unknownMessage (name : String) : String :=
  "unknown language " ++ quoted name ++ "; available: " ++ ", ".intercalate (all.map Language.name)

def text : Language → String
  | calculator => "\n".intercalate calculatorLines
  | json => "\n".intercalate jsonLines
  | miniJs => "\n".intercalate miniJsLines
  | python => "\n".intercalate pythonLines

def grammar (language : Language) : Except (Stop Failure) Grammar :=
  Grammar.read language.text

end Language

end TreeLint
