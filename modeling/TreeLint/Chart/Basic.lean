import TreeLint.Grammar.Build
import Std.Data.HashMap

/-!
# Chart items

A chart has one column for each position between significant tokens. A column holds items: an alternative, a dot that
tells how much of it has been recognized, and the position where it began. A column keeps the links through which each
of its items was reached, so that the chart holds every derivation at once, and an index of its items by the symbol that
each waits for.
-/

namespace TreeLint

namespace Chart

structure Item where
  alternative : Nat
  dot : Nat
  origin : Nat
  deriving DecidableEq, Hashable, Inhabited, Repr

def Item.advance (item : Item) : Item :=
  { item with dot := item.dot + 1 }

def Item.retreat (item : Item) : Item :=
  { item with dot := item.dot - 1 }

inductive Link where
  /-- From the retreated item at this position, over the token there. -/
  | token (position : Nat)
  /-- From the retreated item at this position, over a phrase from there to here. -/
  | phrase (start : Nat) (name : String)
  /-- From the retreated item here, over a nonterminal that derives nothing. -/
  | empty (name : String)
  /-- From the same item at this position, over skipped tokens. -/
  | skip (start : Nat)
  deriving DecidableEq, Hashable, Inhabited, Repr

end Chart

namespace Grammar

def next? (grammar : Grammar) (item : Chart.Item) : Option FlatSymbol := do
  (← grammar.alternatives[item.alternative]?).symbols[item.dot]?

def lhsOf (grammar : Grammar) (item : Chart.Item) : String :=
  (grammar.alternatives.getD item.alternative default).lhs

/-- How many items there can be at a position: one for each place in an alternative and each origin. -/
def itemBound (grammar : Grammar) (position : Nat) : Nat :=
  (grammar.alternatives.foldl (fun total alternative => total + alternative.symbols.length + 1) 0) * (position + 1)

end Grammar

namespace Chart

structure Column where
  items : Array Item := #[]
  /-- The links of each item, the latest first. -/
  links : Std.HashMap Item (List Link) := ∅
  /-- The items that wait for each symbol, the latest first. -/
  waits : Std.HashMap Grammar.FlatSymbol (List Item) := ∅
  deriving Inhabited

namespace Column

def has (column : Column) (item : Item) : Bool :=
  column.links.contains item

def linksOf (column : Column) (item : Item) : List Link :=
  (column.links.getD item []).reverse

def waiting (column : Column) (symbol : Grammar.FlatSymbol) : List Item :=
  (column.waits.getD symbol []).reverse

def push (grammar : Grammar) (column : Column) (item : Item) (links : List Link) : Column :=
  { items := column.items.push item
    links := column.links.insert item links
    waits :=
      match grammar.next? item with
      | none => column.waits
      | some symbol => column.waits.insert symbol (item :: column.waits.getD symbol []) }

/-- A column with an item, reached through a link or by itself; a link is kept once. -/
def add (grammar : Grammar) (column : Column) (item : Item) (link : Option Link) : Column :=
  match column.links[item]?, link with
  | none, link => column.push grammar item link.toList
  | some _, none => column
  | some links, some link =>
    if links.contains link then column else { column with links := column.links.insert item (link :: links) }

def addAll (grammar : Grammar) (column : Column) (steps : List (Item × Option Link)) : Column :=
  steps.foldl (fun column step => column.add grammar step.1 step.2) column

end Column

end Chart

end TreeLint
