import TreeLint.Tree.Draft

/-!
# Trees laid out over the source

A draft is laid out by putting in the trivia and giving each node its range of bytes.

* Trivia between two tokens stands under the lowest node that has tokens on both sides of it; trivia before the first
  and after the last token stands under the root.
* A node with tokens reaches from the start of its first token to the end of its last. A node without tokens is empty
  and stands right after its previous sibling, or at the start of its parent.
-/

namespace TreeLint

inductive Layout where
  | leaf (token : Nat) (start stop : Nat)
  | node (kind : String) (start stop : Nat) (children : List Layout)
  deriving Inhabited, Repr

namespace Layout

def ofToken (tokens : Array Token) (token : Nat) : Layout :=
  let piece := tokens.getD token default
  .leaf token piece.start piece.stop

def trivia (tokens : Array Token) (start stop : Nat) : List Layout :=
  (List.range' start (stop - start)).map (ofToken tokens)

mutual

def place (tokens : Array Token) (start stop : Nat) : Draft → Layout
  | .leaf token => ofToken tokens token
  | .node kind children => .node kind start stop (placeAll tokens start none children)

/-- Siblings laid out from `cursor` on; `last` is the last token before them under the same parent. -/
def placeAll (tokens : Array Token) (cursor : Nat) (last : Option Nat) : List Draft → List Layout
  | [] => []
  | child :: children =>
    match child.bounds with
    | none => place tokens cursor cursor child :: placeAll tokens cursor last children
    | some (first, final) =>
      let between := match last with
        | some last => trivia tokens (last + 1) first
        | none => []
      let start := (tokens.getD first default).start
      let stop := (tokens.getD final default).stop
      between ++ place tokens start stop child :: placeAll tokens stop (some final) children

end

def root (tokens : Array Token) (size : Nat) (children : List Draft) : Layout :=
  let leaves (start stop : Nat) : List Draft := (List.range' start (stop - start)).map .leaf
  let children := match Draft.boundsOfAll children with
    | none => children ++ leaves 0 tokens.size
    | some (first, last) => leaves 0 first ++ children ++ leaves (last + 1) tokens.size
  .node Grammar.documentKind 0 size (placeAll tokens 0 none children)

mutual

def size : Layout → Nat
  | .leaf _ _ _ => 1
  | .node _ _ _ children => sizeOfAll children + 1

def sizeOfAll : List Layout → Nat
  | [] => 0
  | child :: children => size child + sizeOfAll children

end

end Layout

end TreeLint
