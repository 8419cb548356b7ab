import TreeLint.Number.Basic
import TreeLint.Stop

/-!
# S-expressions

Grammars, rules and patterns are written as S-expressions: lists of forms, where a form is a list, a symbol, a string or
a number.

* `Sexp.render` writes a form: strings in double quotes, with the quote and the backslash escaped, everything else bare;
* `Sexp.dump` does so for forms of any origin; one with too long an integer cannot be written;
* `Sexp.head` is the symbol that a list starts with.
-/

namespace TreeLint

inductive Sexp where
  | list (items : List Sexp)
  | symbol (name : String)
  | string (value : String)
  | number (value : Number)
  deriving Inhabited, Repr

namespace Sexp

def escape : List Char → List Char
  | [] => []
  | c :: rest => if c == '\\' || c == '"' then '\\' :: c :: escape rest else c :: escape rest

def render : Sexp → List Char
  | list items => '(' :: renderItems items ++ [')']
  | symbol name => name.toList
  | string value => '"' :: escape value.toList ++ ['"']
  | number value => value.text.toList
where
  renderItems : List Sexp → List Char
    | [] => []
    | [item] => render item
    | item :: items => render item ++ ' ' :: renderItems items

def text (form : Sexp) : String :=
  String.ofList form.render

/-- Whether all numbers in a form can be written. Those in a form that was read can. -/
def isWritable : Sexp → Bool
  | list items => areWritable items
  | number value => value.isWritable
  | symbol _ | string _ => true
where
  areWritable : List Sexp → Bool
    | [] => true
    | item :: items => item.isWritable && areWritable items

def dump (form : Sexp) : Except Breakdown String :=
  if form.isWritable then .ok form.text else .error .longInteger

def head : Sexp → String
  | list (symbol name :: _) => name
  | _ => ""

/-- Whether a form is a symbol; with a name that is not empty, whether it is that symbol. -/
def isSymbol (form : Sexp) (name : String) : Bool :=
  match form with
  | symbol other => name.isEmpty || other == name
  | _ => false

end Sexp

end TreeLint
