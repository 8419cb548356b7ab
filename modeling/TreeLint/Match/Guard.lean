import TreeLint.Pattern.Basic
import TreeLint.Predicate.Evaluate

/-!
# Pending guards

While a pattern is matched, guards wait until the captures they read are bound. A pending chain is a list of guards and
of bindings that will have been added before the guards after them are looked at.

* A guard is decided once for each combination of the captures it reads; a guard that cannot be evaluated does not hold,
  and the mishap is noted.
* `settle` decides what can be decided already and leaves the rest pending.

What is found out is kept in a record, so that nothing is found out twice: the verdicts on guards, and what came of
matching an instruction or a list of instructions over given bindings and a given pending chain.
-/

namespace TreeLint

namespace Match

inductive Pending where
  | guard (id : Nat) (predicate : Predicate)
  | bind (name : String) (node : Nat)

def readsOf : List Pending → List String
  | [] => []
  | .guard _ predicate :: rest => predicate.references ++ readsOf rest
  | .bind name _ :: rest => (readsOf rest).filter (· != name)

inductive PendingKey where
  | guard (id : Nat)
  | bind (name : String) (node : Nat)
  deriving DecidableEq, Hashable, Repr

def Pending.key : Pending → PendingKey
  | guard id _ => .guard id
  | bind name node => .bind name node

structure GuardKey where
  id : Nat
  captures : List (Option Binding)
  deriving DecidableEq, Hashable, Repr

/-- An instruction that is matched at a node, with the bindings and the pending chain that it depends on. -/
structure NodeKey where
  id : Nat
  node : Nat
  bindings : Bindings
  pending : List PendingKey
  deriving DecidableEq, Hashable, Repr

/-- The last `items` instructions of a list that are matched with the last `siblings` children of a node, with the
bindings and the pending chain that they depend on. -/
structure ListKey where
  owner : Nat
  parent : Nat
  items : Nat
  siblings : Nat
  bindings : Bindings
  pending : List PendingKey
  deriving DecidableEq, Hashable, Repr

structure Record where
  verdicts : Std.HashMap GuardKey Bool := {}
  mishaps : List Predicate.Mishap := []
  nodes : Std.HashMap NodeKey (Option Bindings) := {}
  lists : Std.HashMap ListKey (Option (Bindings × Nat)) := {}
  deriving Inhabited

/-- Matching keeps a record, and it may break down. -/
abbrev Matching := ExceptT Breakdown (StateM Record)

def holds (tree : Tree) (id : Nat) (predicate : Predicate) (bindings : Bindings) : Matching Bool := do
  let key : GuardKey := { id, captures := predicate.references.map bindings.get? }
  match (← get).verdicts[key]? with
  | some verdict => return verdict
  | none =>
    match predicate.evaluate tree bindings with
    | .ok verdict =>
      modify fun record => { record with verdicts := record.verdicts.insert key verdict }
      return verdict
    | .error (.fault mishap) =>
      modify fun record =>
        { record with verdicts := record.verdicts.insert key false, mishaps := mishap :: record.mishaps }
      return false
    | .error (.breakdown breakdown) => throw breakdown

def accepts (tree : Tree) (bindings : Bindings) : List Pending → Matching Bool
  | [] => return true
  | .guard id predicate :: rest => do
    if ← holds tree id predicate bindings then accepts tree bindings rest else return false
  | .bind name node :: rest => accepts tree (bindings.put name (.one node)) rest

/-- What is left of a pending chain once the guards that can be decided are, or nothing if one of them fails. -/
def settle (tree : Tree) (bindings : Bindings) : List Pending → Matching (Option (List Pending))
  | [] => return some []
  | .guard id predicate :: rest => do
    if predicate.references.all bindings.has then
      if ← holds tree id predicate bindings then settle tree bindings rest else return none
    else
      match ← settle tree bindings rest with
      | none => return none
      | some left => return some (.guard id predicate :: left)
  | .bind name node :: rest => do
    match ← settle tree (bindings.put name (.one node)) rest with
    | none => return none
    | some [] => return some []
    | some left => return some (.bind name node :: left)

end Match

end TreeLint
