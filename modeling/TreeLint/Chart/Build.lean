import TreeLint.Chart.Basic

/-!
# Building charts

The kinds of the significant tokens are read from left to right.

* A column is closed under three rules: an item that waits for a nonterminal brings in the alternatives of that
  nonterminal; if the nonterminal is nullable, the item also advances over nothing; and a complete item that began
  earlier advances the items that waited for it where it began.
* Reading a token advances the items that wait for its kind.
* Where no item waits for the token at hand, the nearest later token that is waited for is looked up, at most so many
  tokens ahead as the skip bound allows. The items then go on there over a gap; if there is no such token, the reading
  stops.
-/

namespace TreeLint

namespace Chart

def consequences (grammar : Grammar) (earlier : Array Column) (position : Nat) (item : Item) :
    List (Item × Option Link) :=
  match grammar.next? item with
  | none =>
    if item.origin == position then []
    else
      let lhs := grammar.lhsOf item
      ((earlier.getD item.origin {}).waiting (.nonterminal lhs)).map fun parent =>
        (parent.advance, some (.phrase item.origin lhs))
  | some (.terminal _) => []
  | some (.nonterminal name) =>
    (grammar.alternativesOf name).map (fun alternative => (⟨alternative.id, 0, position⟩, none)) ++
      if grammar.isNullable name then [(item.advance, some (.empty name))] else []

/-- Closes a column whose first `done` items have been dealt with. -/
def closeFrom (grammar : Grammar) (earlier : Array Column) (position : Nat) : Nat → Nat → Column → Column
  | 0, _, column => column
  | fuel + 1, done, column =>
    match column.items[done]? with
    | none => column
    | some item =>
      closeFrom grammar earlier position fuel (done + 1)
        (column.addAll grammar (consequences grammar earlier position item))

def close (grammar : Grammar) (earlier : Array Column) (position : Nat) (kernel : Column) : Column :=
  closeFrom grammar earlier position (grammar.itemBound position + 1) 0 kernel

def seed (grammar : Grammar) : Column :=
  Column.addAll grammar {} ((grammar.alternativesOf grammar.start).map fun alternative =>
    (⟨alternative.id, 0, 0⟩, none))

def scan (grammar : Grammar) (column : Column) (position : Nat) (kind : String) : Column :=
  Column.addAll grammar {} ((column.waiting (.terminal kind)).map fun item =>
    (item.advance, some (.token position)))

def waitsFor (column : Column) (kind : String) : Bool :=
  column.waits.contains (.terminal kind)

def expected (column : Column) : List String :=
  let kinds := column.waits.keys.filterMap fun symbol =>
    match symbol with
    | .terminal kind => some kind
    | .nonterminal _ => none
  kinds.mergeSort (· ≤ ·)

/-- The nearest position after `position` whose token a column waits for, at most `bound` tokens ahead. -/
def resync? (kinds : Array String) (column : Column) (position : Nat) (bound : Int) : Option Nat :=
  (List.range' (position + 1) (min bound.toNat (kinds.size - 1 - position))).find? fun target =>
    waitsFor column (kinds.getD target "")

/-- Whether an item goes on over a gap: it is not complete, and it has begun or can begin the whole input. -/
def isLive (grammar : Grammar) (item : Item) : Bool :=
  (grammar.next? item).isSome && (item.dot != 0 || (item.origin == 0 && grammar.lhsOf item == grammar.start))

def carry (grammar : Grammar) (column : Column) (position : Nat) : Column :=
  Column.addAll grammar {} ((column.items.toList.filter (isLive grammar)).map fun item => (item, some (.skip position)))

structure Gap where
  start : Nat
  stop : Nat
  deriving DecidableEq, Inhabited, Repr

end Chart

structure Chart where
  columns : Array Chart.Column
  gaps : List Chart.Gap
  stopped : Option Nat

namespace Chart

theorem lt_of_resync? {kinds : Array String} {column : Column} {position target : Nat} {bound : Int}
    (h : resync? kinds column position bound = some target) : position < target := by
  have hmem := List.mem_of_find?_eq_some h
  rw [List.mem_range'_1] at hmem
  omega

/-- Reads on from a position, with the columns before it and the first items there. -/
def readFrom (grammar : Grammar) (kinds : Array String) (bound : Int) (columns : Array Column) (gaps : List Gap)
    (position : Nat) (kernel : Column) : Chart :=
  let column := close grammar columns position kernel
  let columns := columns.push column
  if position < kinds.size then
    let scanned := scan grammar column position (kinds.getD position "")
    if scanned.items.isEmpty then
      match h : resync? kinds column position bound with
      | none => { columns, gaps, stopped := some position }
      | some target =>
        readFrom grammar kinds bound (columns ++ Array.replicate (target - position - 1) {})
          (gaps ++ [⟨position, target⟩]) target (carry grammar column position)
    else readFrom grammar kinds bound columns gaps (position + 1) scanned
  else { columns, gaps, stopped := none }
termination_by kinds.size - position
decreasing_by
  · have := lt_of_resync? h
    omega
  · omega

def read (grammar : Grammar) (kinds : Array String) (bound : Int) : Chart :=
  readFrom grammar kinds bound #[] [] 0 (seed grammar)

def column (chart : Chart) (position : Nat) : Column :=
  chart.columns.getD position {}

def accepts (grammar : Grammar) (chart : Chart) (position : Nat) : Bool :=
  (grammar.alternativesOf grammar.start).any fun alternative =>
    (chart.column position).has ⟨alternative.id, alternative.symbols.length, 0⟩

/-- The last position up to `limit` before which the start symbol derives the tokens. -/
def lastAccepted? (grammar : Grammar) (chart : Chart) : Nat → Option Nat
  | 0 => if chart.accepts grammar 0 then some 0 else none
  | limit + 1 =>
    if chart.accepts grammar (limit + 1) then some (limit + 1) else chart.lastAccepted? grammar limit

end Chart

end TreeLint
