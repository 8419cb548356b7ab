import TreeLint.Chart.Build
import TreeLint.Forest.Derivation

/-!
# Selecting a derivation

A chart may hold many derivations of one phrase. One is selected, by these preferences:

* for a nonterminal over a range, the alternative that was declared first;
* for an item, the link whose derivation skips least; then, for a left associative alternative, the link whose last part
  is shortest, and for a right associative one the link whose last part is longest; then the link found first.

Items and phrases are settled depth first, each once. While one is being settled it is open, and an open one counts as
having no derivation, so that a derivation never passes through itself.
-/

namespace TreeLint

namespace Forest

open Chart (Item Link)

/-- Something that has derivations: an item in a column, or a nonterminal over a range. -/
inductive Spot where
  | item (position : Nat) (item : Item)
  | phrase (name : String) (start stop : Nat)
  deriving DecidableEq, Hashable, Inhabited, Repr

/-- A selected derivation: the gaps it crosses, and its parts from the last to the first. -/
structure Choice where
  skips : Nat
  parts : List Derivation
  deriving Inhabited, Repr

inductive Verdict where
  | unsettled
  | dead
  | chosen (choice : Choice)
  deriving Inhabited, Repr

abbrev Memo := Std.HashMap Spot Verdict

def choice? (memo : Memo) (spot : Spot) : Option Choice :=
  match memo[spot]? with
  | some (.chosen choice) => some choice
  | _ => none

def completeItems (grammar : Grammar) (chart : Chart) (name : String) (start stop : Nat) : List Item :=
  ((grammar.alternativesOf name).map fun alternative => ⟨alternative.id, alternative.symbols.length, start⟩).filter
    (chart.column stop).has

def linksOf (chart : Chart) (position : Nat) (item : Item) : List Link :=
  (chart.column position).linksOf item

def linkSpots (position : Nat) (item : Item) : Link → List Spot
  | .token start => [.item start item.retreat]
  | .phrase start name => [.item start item.retreat, .phrase name start position]
  | .empty _ => [.item position item.retreat]
  | .skip start => [.item start item]

def dependencies (grammar : Grammar) (chart : Chart) : Spot → List Spot
  | .phrase name start stop => (completeItems grammar chart name start stop).map (.item stop)
  | .item position item => (linksOf chart position item).flatMap (linkSpots position item)

def throughLink (grammar : Grammar) (memo : Memo) (position : Nat) (item : Item) : Link → Option Choice
  | .token start => do
    let before ← choice? memo (.item start item.retreat)
    return { before with parts := .token start :: before.parts }
  | .phrase start name => do
    let before ← choice? memo (.item start item.retreat)
    let phrase ← choice? memo (.phrase name start position)
    return { skips := before.skips + phrase.skips,
             parts := .phrase name start position phrase.parts.reverse :: before.parts }
  | .empty name => do
    let before ← choice? memo (.item position item.retreat)
    return { before with parts := grammar.emptyDerivation name position :: before.parts }
  | .skip start => do
    let before ← choice? memo (.item start item)
    return { skips := before.skips + 1, parts := .skipped start position :: before.parts }

def split (position : Nat) : Link → Nat
  | .token start | .phrase start _ | .skip start => start
  | .empty _ => position

def isPreferred (assoc : Grammar.Assoc) (later earlier : Choice × Nat) : Bool :=
  later.1.skips < earlier.1.skips ||
    (later.1.skips == earlier.1.skips &&
      (if assoc == .right then later.2 < earlier.2 else earlier.2 < later.2))

/-- The preferred one of a list of derivations with their splits, in the order their links were found. -/
def preferred? (assoc : Grammar.Assoc) (options : List (Choice × Nat)) : Option Choice :=
  (options.foldl (fun best option =>
    match best with
    | none => some option
    | some current => some (if isPreferred assoc option current then option else current)) none).map (·.1)

def chooseItem (grammar : Grammar) (chart : Chart) (memo : Memo) (position : Nat) (item : Item) : Option Choice :=
  let links := linksOf chart position item
  if links.isEmpty then
    if item.dot == 0 then some { skips := 0, parts := [] } else none
  else
    let assoc := (grammar.alternatives.getD item.alternative default).assoc
    preferred? assoc (links.filterMap fun link =>
      (throughLink grammar memo position item link).map fun choice => (choice, split position link))

def choose (grammar : Grammar) (chart : Chart) (memo : Memo) : Spot → Option Choice
  | .phrase name start stop =>
    (completeItems grammar chart name start stop).findSome? fun item => choice? memo (.item stop item)
  | .item position item => chooseItem grammar chart memo position item

def settle (grammar : Grammar) (chart : Chart) : Nat → Spot → Memo → Memo
  | 0, _, memo => memo
  | fuel + 1, spot, memo =>
    if memo.contains spot then memo
    else
      let memo := (dependencies grammar chart spot).foldr (fun next memo => settle grammar chart fuel next memo)
        (memo.insert spot .unsettled)
      match choose grammar chart memo spot with
      | some choice => memo.insert spot (.chosen choice)
      | none => memo.insert spot .dead

/-- How many spots there can be: the items, the phrases on their links, and the root. -/
def spotBound (chart : Chart) : Nat :=
  chart.columns.foldl (fun total column =>
    column.items.foldl (fun total item => total + (column.linksOf item).length + 1) total) 1

def solve (grammar : Grammar) (chart : Chart) (name : String) (start stop : Nat) : Memo :=
  settle grammar chart (spotBound chart + 1) (.phrase name start stop) ∅

end Forest

end TreeLint
