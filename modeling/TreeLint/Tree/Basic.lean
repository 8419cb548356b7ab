import TreeLint.Tree.Layout

/-!
# Syntax trees

A tree keeps its nodes in an array, in preorder: the root is node 0, and the nodes below a node follow it without a gap.

* `Tree.parse` parses a source; it always gives a tree, and the problems of the source are kept on it;
* `Tree.walk`, `Tree.descendants`, `Tree.ancestors` and `Tree.nodeAt` find one's way in a tree.
-/

namespace TreeLint

structure Node where
  kind : String
  kindId : Nat
  start : Nat
  stop : Nat
  children : List Nat := []
  parent : Option Nat := none
  token : Option Nat := none
  trivia : Bool := false
  deriving DecidableEq, Inhabited, Repr

def Node.isLeaf (node : Node) : Bool :=
  node.token.isSome

namespace Layout

def childIds (id : Nat) : List Layout → List Nat
  | [] => []
  | child :: children => id :: childIds (id + child.size) children

mutual

/-- The nodes of a tree in preorder, the first with the number `id`. -/
def nodes (grammar : Grammar) (tokens : Array Token) (parent : Option Nat) (id : Nat) : Layout → List Node
  | .leaf token start stop =>
    let piece := tokens.getD token default
    [{ kind := piece.kind, kindId := grammar.kindId piece.kind, start, stop, parent, token := some token,
       trivia := piece.trivia }]
  | .node kind start stop children =>
    { kind, kindId := grammar.kindId kind, start, stop, children := childIds (id + 1) children, parent } ::
      nodesOfAll grammar tokens id (id + 1) children

def nodesOfAll (grammar : Grammar) (tokens : Array Token) (parent id : Nat) : List Layout → List Node
  | [] => []
  | child :: children =>
    nodes grammar tokens (some parent) id child ++ nodesOfAll grammar tokens parent (id + child.size) children

end

end Layout

structure Tree where
  nodes : Array Node
  grammar : Grammar
  tokens : Array Token
  source : Source
  path : String
  problems : List Problem

/-- Whether a problem is listed no later than another: by start, then by end, then terminal ones last. -/
def Problem.precedes (a b : Problem) : Bool :=
  a.span.start < b.span.start ||
    (a.span.start == b.span.start &&
      (a.span.stop < b.span.stop || (a.span.stop == b.span.stop && (!a.terminal || b.terminal))))

namespace Tree

def defaultPath : String := "<string>"

def ofForest (forest : Forest) (source : Source) (path : String) (lexical : List Problem) : Tree :=
  let layout := Layout.root forest.tokens source.size (Draft.ofForest forest)
  { nodes := (layout.nodes forest.grammar forest.tokens none 0).toArray, grammar := forest.grammar,
    tokens := forest.tokens, source, path,
    problems := (lexical ++ forest.problems).mergeSort Problem.precedes }

def parse (grammar : Grammar) (source : Source) (path : String := defaultPath) (config : Config := {}) : Tree :=
  let tokens := tokenize grammar source
  ofForest (Forest.parse grammar tokens config) source path (lexicalProblems tokens)

def size (tree : Tree) : Nat :=
  tree.nodes.size

def node (tree : Tree) (id : Nat) : Node :=
  tree.nodes.getD id default

/-- The number that a number counted from either end stands for, if there is such a node. -/
def resolve? (tree : Tree) (id : Int) : Option Nat :=
  resolveIndex? tree.size id

def significantChildren (tree : Tree) (id : Nat) : List Nat :=
  (tree.node id).children.filter fun child => !(tree.node child).trivia

/-- The nodes above a node, from the nearest on, at most so many. -/
def ancestorsUpTo (tree : Tree) : Nat → Nat → List Nat
  | 0, _ => []
  | count + 1, id =>
    match (tree.node id).parent with
    | some parent => parent :: tree.ancestorsUpTo count parent
    | none => []

def ancestors (tree : Tree) (id : Nat) : List Nat :=
  tree.ancestorsUpTo tree.size id

/-- A node and the nodes below it in preorder, at most so many levels. -/
def walkLevels (tree : Tree) : Nat → Nat → List Nat
  | 0, _ => []
  | levels + 1, id => id :: (tree.node id).children.flatMap (tree.walkLevels levels)

def walk (tree : Tree) (id : Nat) : List Nat :=
  tree.walkLevels (tree.size + 1) id

/-- The last node below a node, at most so many levels down. -/
def lastBelow (tree : Tree) : Nat → Nat → Nat
  | 0, id => id
  | levels + 1, id =>
    match (tree.node id).children.getLast? with
    | some child => tree.lastBelow levels child
    | none => id

def endOf (tree : Tree) (id : Nat) : Nat :=
  tree.lastBelow tree.size id + 1

def descendants (tree : Tree) (id : Nat) : List Nat :=
  List.range' (id + 1) (tree.endOf id - (id + 1))

/-- Where the numbers of the nodes below a node begin and where they end, for a number counted from either end. From the
end of the tree, a node without children is counted as such here too. -/
def rangeBelow? (tree : Tree) (id : Int) : Option (Int × Int) :=
  (tree.resolve? id).map fun found =>
    (id + 1, if (tree.node found).children.isEmpty then id + 1 else tree.endOf found)

def leaves (tree : Tree) (id : Nat) : List Nat :=
  (tree.walk id).filter fun below => (tree.node below).isLeaf

def ofKind (tree : Tree) (kindId : Int) : List Nat :=
  (List.range tree.size).filter fun id => (tree.node id).kindId == kindId

def find (tree : Tree) (kind : String) : List Nat :=
  match tree.grammar.kindId? kind with
  | some kindId => tree.ofKind kindId
  | none => []

/-- The deepest node that holds a byte, from a node on, at most so many levels down. -/
def nodeAtFrom (tree : Tree) (offset : Int) : Nat → Nat → Nat
  | 0, id => id
  | levels + 1, id =>
    let child? := (tree.node id).children.find? fun child =>
      (tree.node child).start ≤ offset && offset < (tree.node child).stop
    match child? with
    | some child => tree.nodeAtFrom offset levels child
    | none => id

def nodeAt (tree : Tree) (offset : Int) : Nat :=
  tree.nodeAtFrom offset tree.size 0

def text (tree : Tree) (id : Nat) : Text :=
  tree.source.slice (tree.node id).start (tree.node id).stop

def lineColumn (tree : Tree) (id : Nat) : Int × Int :=
  tree.source.lineColumn (tree.node id).start

/-! ## Trees as shown to people -/

/-- A node as a nested list, at most so many levels. -/
def sexpLevels (tree : Tree) (trivia : Bool) : Nat → Nat → String
  | 0, _ => ""
  | levels + 1, id =>
    let node := tree.node id
    if node.isLeaf then "(" ++ node.kind ++ " " ++ (tree.text id).quoted ++ ")"
    else
      let children := if trivia then node.children else tree.significantChildren id
      "(" ++ node.kind ++ String.join (children.map fun child => " " ++ tree.sexpLevels trivia levels child) ++ ")"

def sexp (tree : Tree) (id : Nat) (trivia : Bool) : String :=
  tree.sexpLevels trivia (tree.size + 1) id

def linesLevels (tree : Tree) (margin : String) : Nat → Nat → List String
  | 0, _ => []
  | levels + 1, id =>
    let node := tree.node id
    let label := margin ++ node.kind ++ " [" ++ toString node.start ++ ", " ++ toString node.stop ++ ")" ++
      (if node.isLeaf then " " ++ (tree.text id).quoted else "")
    label :: node.children.flatMap (tree.linesLevels (margin ++ "  ") levels)

def pretty (tree : Tree) (id : Nat) : String :=
  "\n".intercalate (tree.linesLevels "" (tree.size + 1) id)

def summary (tree : Tree) : String :=
  "SyntaxTree(" ++ quoted tree.path ++ ", nodes=" ++ toString tree.size ++ ", errors=" ++
    toString tree.problems.length ++ ")"

end Tree

end TreeLint
