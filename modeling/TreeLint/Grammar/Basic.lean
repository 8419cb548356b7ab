/-!
# Grammar descriptions

A grammar is described by productions over symbols, by token rules, and by the way comments switch rules off. A symbol
is a reference by name, a literal terminal, or a quantified group of symbols. A description says nothing about whether
it holds together: that is checked when the grammar is built.
-/

namespace TreeLint

namespace Grammar

def documentKind : String := "document"

def errorKind : String := "error"

def unparsedKind : String := "unparsed"

def unknownKind : String := "unknown"

def whitespaceKind : String := "whitespace"

def reservedKinds : List String :=
  [documentKind, errorKind, unparsedKind, unknownKind, whitespaceKind]

inductive Quantifier where
  | optional
  | star
  | plus
  | other (mark : String)
  deriving DecidableEq, Inhabited, Repr

def Quantifier.ofMark (mark : String) : Quantifier :=
  if mark == "?" then optional
  else if mark == "*" then star
  else if mark == "+" then plus
  else other mark

def Quantifier.mark : Quantifier → String
  | optional => "?"
  | star => "*"
  | plus => "+"
  | other mark => mark

inductive Symbol where
  | ref (name : String)
  | literal (text : String)
  | group (quantifier : Quantifier) (symbols : List Symbol)
  deriving Inhabited, Repr

inductive Assoc where
  | left
  | right
  | other (word : String)
  deriving DecidableEq, Inhabited, Repr

def Assoc.ofWord (word : String) : Assoc :=
  if word == "left" then left
  else if word == "right" then right
  else other word

def Assoc.word : Assoc → String
  | left => "left"
  | right => "right"
  | other word => word

structure Alternative where
  symbols : List Symbol
  assoc : Assoc := .left
  deriving Inhabited, Repr

structure Production where
  name : String
  alternatives : List Alternative
  /-- A node with exactly one child gives way to it. -/
  transparent : Bool := false
  /-- A node always gives way to its children. -/
  inline : Bool := false
  deriving Inhabited, Repr

structure TokenRule where
  name : String
  pattern : String
  priority : Int := 0
  trivia : Bool := false
  literal : Bool := false
  deriving DecidableEq, Inhabited, Repr

/-- The expression that marks a comment as a directive when none is given. -/
def defaultDirective : String :=
  "chartlint:\\s*ignore(?:\\[(?P<rules>[^\\]]*)\\])?"

structure Suppression where
  commentKinds : List String := []
  /-- The expression that is searched in a comment; its group `rules` lists rule names between commas. -/
  directive : String := defaultDirective
  deriving DecidableEq, Inhabited, Repr

structure Description where
  name : String
  productions : List Production
  tokens : List TokenRule := []
  start : String := ""
  suppression : Suppression := {}
  deriving Inhabited, Repr

end Grammar

end TreeLint
