import TreeLint.Lint

/-!
# Sessions

A session lints one source after the other. It keeps the trees it has parsed, so that the same text under the same name
is parsed once, and it reports the defect of a rule once.

* A tree is kept under the name of its grammar, its path and its bytes. The configuration is no part of that key: a kept
  tree is used again whatever the configuration is.
* `Session.reset` forgets all of this, except for the trees that were given a label.
-/

namespace TreeLint

structure TreeKey where
  grammar : String
  path : String
  bytes : List UInt8
  deriving DecidableEq, Inhabited, Repr

/-- Where a tree comes from: the `key` it is kept under in the `round`th round of a session. -/
structure TreeOrigin where
  round : Nat
  key : TreeKey
  deriving DecidableEq, Inhabited, Repr

structure SessionTree where
  tree : Tree
  origin : Option TreeOrigin

structure Session where
  round : Nat := 0
  trees : List (TreeKey × Tree) := []
  reported : List String := []
  labels : List (String × SessionTree) := []

namespace Session

def treeFor (session : Session) (grammar : Grammar) (source : Source) (path : String := Tree.defaultPath)
    (config : Config := {}) : SessionTree × Session :=
  let key : TreeKey := { grammar := grammar.name, path, bytes := source.bytes }
  if !config.cacheTrees then ({ tree := Tree.parse grammar source path config, origin := none }, session)
  else
    let origin := some { round := session.round, key }
    match session.trees.lookup key with
    | some tree => ({ tree, origin }, session)
    | none =>
      let tree := Tree.parse grammar source path config
      ({ tree, origin }, { session with trees := (key, tree) :: session.trees })

def treeCount (session : Session) : Nat :=
  session.trees.length

def firstReport (session : Session) (rule : String) : Bool × Session :=
  if session.reported.contains rule then (false, session)
  else (true, { session with reported := session.reported ++ [rule] })

def apply (session : Session) (linting : Lint.Linting (List Diagnostic)) :
    Except Breakdown (List Diagnostic) × Session :=
  let (outcome, reported) := (linting.run).run session.reported
  (outcome, { session with reported })

def evaluate (session : Session) (rules : List Rule) (tree : Tree) (config : Config := {}) :
    Except Breakdown (List Diagnostic) × Session :=
  session.apply (Lint.evaluate rules tree config)

def lint (session : Session) (grammar : Grammar) (rules : List Rule) (source : Source)
    (path : String := Tree.defaultPath) (config : Config := {}) : Except Breakdown (List Diagnostic) × Session :=
  let (found, session) := session.treeFor grammar source path config
  session.apply (Lint.lintTree rules found.tree path config)

def reset (session : Session) : Session :=
  { round := session.round + 1, labels := session.labels }

def keep (session : Session) (label : String) (found : SessionTree) : Session :=
  { session with labels := (label, found) :: session.labels.filter (·.1 != label) }

def labelled? (session : Session) (label : String) : Option Tree :=
  (session.labels.lookup label).map (·.tree)

def labelsOf (session : Session) (found : SessionTree) : List String :=
  match found.origin with
  | none => []
  | some origin => (session.labels.filter fun (_, other) => other.origin == some origin).map (·.1)

end Session

end TreeLint
