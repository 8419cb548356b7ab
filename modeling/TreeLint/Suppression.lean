import TreeLint.Glob
import TreeLint.Tree.Basic

/-!
# Suppressions

A comment that holds the directive of the grammar switches rules off for a part of the source: those whose names match
one of the globs it lists, or all of them if it lists none.

* A comment after code on its line switches them off for that line.
* Any other comment switches them off for what comes next: the largest node that starts with the next token that is
  neither trivia nor blank, as long as that node is not a list with other items in it.

`Suppressions` holds what is switched off for one tree, and rules that are switched off everywhere.
-/

namespace TreeLint

structure Suppression where
  span : Span
  globs : List Text := []
  comment : Option Span := none
  deriving DecidableEq, Inhabited, Repr

namespace Suppression

def appliesTo (suppression : Suppression) (rule : String) : Bool :=
  suppression.globs.isEmpty || suppression.globs.any (Glob.isMatch · rule)

def covers (suppression : Suppression) (rule : String) (span : Span) : Bool :=
  suppression.appliesTo rule && suppression.span.intersects span

def globsOf (list : Text) : List Text :=
  ((list.splitOn ',').map Text.trim).filter (!·.isEmpty)

def directive? (grammar : Grammar) (comment : Text) : Option (List Text) :=
  (grammar.directive.search comment).map fun (_, cursor) =>
    globsOf ((grammar.directive.groupText? comment.toArray cursor "rules").getD [])

mutual

/-- Whether a symbol is or holds a group that may be repeated more than once. -/
def symbolRepeats : Grammar.Symbol → Bool
  | .group quantifier symbols => quantifier == .star || quantifier == .plus || symbolsRepeat symbols
  | _ => false

def symbolsRepeat : List Grammar.Symbol → Bool
  | [] => false
  | symbol :: symbols => symbolRepeats symbol || symbolsRepeat symbols

end

/-- Whether nodes of a kind are lists: whether the production of that name holds a repeated group. -/
def repeats (grammar : Grammar) (kind : String) : Bool :=
  match grammar.production? kind with
  | some production => production.alternatives.any fun alternative => symbolsRepeat alternative.symbols
  | none => false

def isLongList (tree : Tree) (id : Nat) : Bool :=
  1 < (tree.significantChildren id).length && repeats tree.grammar (tree.node id).kind

/-- The last of a node and the nodes above it, from the nearest on, that is reached without leaving its start, entering
the document or entering a list of several items. -/
def climb (tree : Tree) (id : Nat) : List Nat → Nat
  | [] => id
  | parent :: above =>
    if (tree.node parent).start != (tree.node id).start || (tree.node parent).kind == Grammar.documentKind ||
        isLongList tree parent then id
    else climb tree parent above

/-- The largest node that starts at a byte and is not a list of several items. -/
def outermostAt (tree : Tree) (offset : Nat) : Nat :=
  let id := tree.nodeAt offset
  climb tree id (tree.ancestors id)

def nextItem? (tokens : List Token) : Option Token :=
  tokens.find? fun token => !token.trivia && !token.text.allBlank

def spanOfNode (tree : Tree) (id : Nat) : Span :=
  let node := tree.node id
  let (line, column) := tree.source.lineColumn node.start
  .between node.start node.stop line column tree.path

/-- The part of a source that a comment speaks of, where the tokens after it are `later`. -/
def target? (tree : Tree) (comment : Token) (later : List Token) : Option Span :=
  let (start, stop) := (tree.source.lineSpan? comment.line).getD (0, 0)
  if (tree.source.slice start comment.start).allBlank then
    (nextItem? later).map fun token => spanOfNode tree (outermostAt tree token.start)
  else some (.between start stop comment.line 1 tree.path)

def collectFrom (tree : Tree) : List Token → List Suppression
  | [] => []
  | token :: later =>
    let found? : Option Suppression := do
      guard (tree.grammar.isComment token.kind)
      let globs ← directive? tree.grammar token.text
      let span ← target? tree token later
      return { span, globs, comment := some (.between token.start token.stop token.line token.column tree.path) }
    found?.toList ++ collectFrom tree later

def collect (tree : Tree) : List Suppression :=
  collectFrom tree tree.tokens.toList

end Suppression

structure Suppressions where
  inline : List Suppression := []
  everywhere : List Text := []
  deriving Inhabited

namespace Suppressions

def ofTree (tree : Tree) : Suppressions :=
  { inline := Suppression.collect tree }

def addEverywhere (suppressions : Suppressions) (glob : Text) : Suppressions :=
  { suppressions with everywhere := suppressions.everywhere ++ [glob] }

def hides (suppressions : Suppressions) (rule : String) (span : Span) : Bool :=
  suppressions.everywhere.any (Glob.isMatch · rule) || suppressions.inline.any (·.covers rule span)

end Suppressions

end TreeLint
