import TreeLint.Match.Guard

/-!
# Matching patterns

Matching is top-down. A kind with a list of children matches a node whose significant children match the list: each item
takes one child, and an ellipsis takes as few as let the rest of the list match. Every instruction keeps its first way
to match, except that a pending guard that fails makes the lists before it look further.
-/

namespace TreeLint

structure Match where
  anchor : Nat
  captures : Bindings
  nodes : List Nat
  deriving DecidableEq, Inhabited, Repr

namespace Match

open Pattern (Instr)

def firstFound (attempt : α → Matching (Option β)) : List α → Matching (Option β)
  | [] => return none
  | candidate :: candidates => do
    match ← attempt candidate with
    | some result => return some result
    | none => firstFound attempt candidates

def accepted (tree : Tree) (bindings : Bindings) (pending : List Pending) (bound : Bindings := []) :
    Matching (Option Bindings) := do
  if ← accepts tree (bindings.add bound) pending then return some bound else return none

/-- The part of bindings that matters for what reads some names, with a pending chain. -/
def relevant (bindings : Bindings) (reads : Unit → List String) (pending : List Pending) : Bindings :=
  if bindings.isEmpty then [] else bindings.only (Predicate.nameSet (reads () ++ readsOf pending))

/-- The outcome for an instruction at a node from the record, or else a new one, which is recorded. -/
def recallNode (key : NodeKey) (find : Matching (Option Bindings)) : Matching (Option Bindings) := do
  match (← get).nodes[key]? with
  | some outcome => return outcome
  | none =>
    let outcome ← find
    modify fun record => { record with nodes := record.nodes.insert key outcome }
    return outcome

def recallList (key : ListKey) (find : Matching (Option (Bindings × Nat))) : Matching (Option (Bindings × Nat)) := do
  match (← get).lists[key]? with
  | some outcome => return outcome
  | none =>
    let outcome ← find
    modify fun record => { record with lists := record.lists.insert key outcome }
    return outcome

/-- How many siblings an ellipsis may take, in the order they are tried: of `count` siblings, where `rest` comes after
it and all siblings are to be taken if `anchored`. -/
def takes (anchored : Bool) (rest : List Instr) (count : Nat) : List Nat :=
  let fixed := rest.countP (!·.isEllipsis)
  if count < fixed then []
  else if rest.isEmpty || (anchored && !rest.any (·.isEllipsis)) then [count - fixed]
  else List.range (count - fixed + 1)

mutual

/-- The first way an instruction matches a node for which the pending chain holds: what it binds. -/
def matchNode (tree : Tree) (instr : Instr) (node : Nat) (bindings : Bindings) (pending : List Pending) :
    Matching (Option Bindings) := do
  match ← settle tree bindings pending with
  | none => return none
  | some pending =>
    let bindings := relevant bindings (fun _ => instr.reads) pending
    recallNode { id := instr.id, node, bindings, pending := pending.map Pending.key } do
      match instr with
      | .kind _ _ kindId =>
        if (tree.node node).kindId == kindId then accepted tree bindings pending else return none
      | .node id _ kindId items =>
        if (tree.node node).kindId == kindId then
          let children := tree.significantChildren node
          return (← matchItems tree id node true items children children.length bindings pending).map (·.1)
        else return none
      | .wildcard _ => accepted tree bindings pending
      | .text _ value =>
        if tree.text node == Text.ofString value then accepted tree bindings pending else return none
      | .regex _ _ compiled =>
        if compiled.isFoundIn (tree.text node) then accepted tree bindings pending else return none
      | .metavar _ name => accepted tree bindings pending [(name, .one node)]
      | .capture _ name inner =>
        let pending := if pending.isEmpty then [] else .bind name node :: pending
        return (← matchNode tree inner node bindings pending).map (·.put name (.one node))
      | .backref _ name =>
        if tree.text node == ((bindings.get? name).getD default).text tree then accepted tree bindings pending
        else return none
      | .oneOf _ options => matchOptions tree options node bindings pending
      | .negation _ inner =>
        match ← matchNode tree inner node bindings [] with
        | some _ => return none
        | none => accepted tree bindings pending
      | .deep _ inner =>
        firstFound (fun target => matchNode tree inner target bindings pending)
          ((node :: tree.descendants node).filter fun target => !(tree.node target).trivia)
      | .guarded id inner predicate => matchNode tree inner node bindings (.guard id predicate :: pending)
      | .ellipsis _ | .siblings _ _ _ => return none

def matchOptions (tree : Tree) (options : List Instr) (node : Nat) (bindings : Bindings) (pending : List Pending) :
    Matching (Option Bindings) :=
  match options with
  | [] => return none
  | option :: options => do
    match ← matchNode tree option node bindings pending with
    | some found => return some found
    | none => matchOptions tree options node bindings pending

/-- The first way the items of an owner match the last `count` children of a parent: what it binds and how many siblings
it leaves over. If `anchored`, none may be left. -/
def matchItems (tree : Tree) (owner parent : Nat) (anchored : Bool) (items : List Instr) (siblings : List Nat)
    (count : Nat) (bindings : Bindings) (pending : List Pending) : Matching (Option (Bindings × Nat)) := do
  match ← settle tree bindings pending with
  | none => return none
  | some pending =>
    let bindings := relevant bindings (fun _ => Instr.readsOfAll items) pending
    let key : ListKey :=
      { owner, parent, items := items.length, siblings := count, bindings, pending := pending.map Pending.key }
    recallList key do
      match items with
      | [] => if anchored && count != 0 then return none else return (← accepted tree bindings pending).map (·, count)
      | item :: rest =>
        if item.isEllipsis then
          firstFound (fun taken => do
              let bound := match item.runName? with
                | some name => [(name, .run (siblings.take taken))]
                | none => []
              let found ← matchItems tree owner parent anchored rest (siblings.drop taken) (count - taken)
                (bindings.add bound) pending
              return found.map fun (others, left) => (bound.add others, left))
            (takes anchored rest count)
        else
          match siblings with
          | [] => return none
          | sibling :: others =>
            if count - 1 < rest.countP (!·.isEllipsis) then return none
            else
              match ← matchNode tree item sibling bindings [] with
              | none => return none
              | some bound =>
                let found ← matchItems tree owner parent anchored rest others (count - 1) (bindings.add bound) pending
                return found.map fun (others, left) => (bound.add others, left)

end

inductive Misuse where
  | otherGrammar (pattern tree : String)
  | notNodePattern
  | noSuchNode (id : Int)
  deriving DecidableEq, Repr

def Misuse.message : Misuse → String
  | otherGrammar pattern tree =>
    "pattern compiled for grammar " ++ quoted pattern ++ " cannot match a " ++ quoted tree ++ " tree"
  | notNodePattern => "match_at() needs a node pattern, not a sibling sequence"
  | noSuchNode id => "no node " ++ toString id

def checkGrammar (pattern : Pattern) (tree : Tree) : Except Misuse Unit :=
  if pattern.grammarName == tree.grammar.name then .ok ()
  else .error (.otherGrammar pattern.grammarName tree.grammar.name)

def atNode (tree : Tree) (root : Instr) (node : Nat) : Matching (Option Match) := do
  return (← matchNode tree root node [] []).map fun captures => { anchor := node, captures, nodes := [node] }

def atNode? (pattern : Pattern) (tree : Tree) (id : Int) : Matching (Except Misuse (Option Match)) := do
  if pattern.isSequence then return .error .notNodePattern
  else
    match tree.resolve? id with
    | some node => return .ok (← atNode tree pattern.root node)
    | none => return .error (.noSuchNode id)

def candidates (pattern : Pattern) (tree : Tree) : List Nat :=
  match pattern.anchorKinds with
  | none => (List.range tree.size).filter fun id => !(tree.node id).trivia
  | some kinds => (List.range tree.size).filter fun id => kinds.contains (tree.node id).kindId

/-- The match of a run of siblings that starts with the first of the given children of a parent. -/
def ofSiblings (tree : Tree) (owner : Nat) (items : List Instr) (pending : List Pending) (parent : Nat)
    (siblings : List Nat) : Matching (Option Match) := do
  match ← matchItems tree owner parent false items siblings siblings.length [] pending with
  | none => return none
  | some (captures, left) =>
    match siblings.take (siblings.length - left) with
    | [] => return none
    | anchor :: others => return some { anchor, captures, nodes := anchor :: others }

/-- The places at which a run of siblings may start: an inner node with the significant children from one of them on. -/
def siblingRuns (tree : Tree) : List (Nat × List Nat) :=
  ((List.range tree.size).filter fun id => !(tree.node id).isLeaf).flatMap fun id =>
    let children := tree.significantChildren id
    (List.range children.length).map fun start => (id, children.drop start)

def attempts (pattern : Pattern) (tree : Tree) : List (Matching (Option Match)) :=
  match pattern.root with
  | .siblings id items guard =>
    let pending := match guard with
      | some predicate => [.guard id predicate]
      | none => []
    (siblingRuns tree).map fun (parent, siblings) => ofSiblings tree id items pending parent siblings
  | root => (candidates pattern tree).map (atNode tree root)

/-- A match with its captures in the order of their names, by which matches are compared. -/
def key (found : Match) : Match :=
  { found with captures := found.captures.sorted }

structure Trace where
  /-- The matches, each with the mishaps up to it, the latest first. -/
  found : List (Match × List Predicate.Mishap)
  breakdown : Option Breakdown
  record : Record

def collect (record : Record) (seen : List Match) : List (Matching (Option Match)) → Trace
  | [] => { found := [], breakdown := none, record }
  | attempt :: attempts =>
    match (attempt.run).run record with
    | (.error breakdown, record) => { found := [], breakdown := some breakdown, record }
    | (.ok none, record) => collect record seen attempts
    | (.ok (some found), record) =>
      if seen.contains found.key then collect record seen attempts
      else
        let mishaps := record.mishaps
        let rest := collect record (found.key :: seen) attempts
        { rest with found := (found, mishaps) :: rest.found }

def trace (pattern : Pattern) (tree : Tree) (record : Record := {}) : Trace :=
  collect record [] (attempts pattern tree)

def Trace.matches (trace : Trace) : Except Breakdown (List Match) :=
  match trace.breakdown with
  | some breakdown => .error breakdown
  | none => .ok (trace.found.map (·.1))

/-- The first matches of a search, up to a limit. The search goes on to the match after these. -/
def Trace.firstMatches (trace : Trace) (limit : Nat) : Except Breakdown (List Match) :=
  if limit < trace.found.length then .ok ((trace.found.map (·.1)).take limit) else trace.matches

def run (pattern : Pattern) (tree : Tree) : Except Breakdown (List Match) :=
  (trace pattern tree).matches

def captureIds? (found : Match) (name : String) : Option (List Nat) :=
  (found.captures.get? name).map Binding.ids

end Match

end TreeLint
