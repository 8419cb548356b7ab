import TreeLint.Forest.Parse

/-!
# Drafts of trees

A draft is the shape of a tree before trivia and spans are known. It is read off the selected derivation:

* a node of an inline production, or of a group, gives way to its children;
* a node of a transparent production gives way to its child if it has exactly one;
* skipped tokens stand under an `error` node, and the unparsed rest under one `unparsed` node at the end.
-/

namespace TreeLint

inductive Draft where
  | leaf (token : Nat)
  | node (kind : String) (children : List Draft)
  deriving Inhabited, Repr

namespace Draft

def leaves (significant : Array Nat) (start stop : Nat) : List Draft :=
  (significant.extract start stop).toList.map .leaf

/-- The node of a nonterminal, or what it gives way to. -/
def wrap (grammar : Grammar) (name : String) (children : List Draft) : List Draft :=
  if grammar.isInline name then children
  else if grammar.isTransparent name && children.length == 1 then children
  else [.node name children]

mutual

def ofDerivation (grammar : Grammar) (significant : Array Nat) : Derivation → List Draft
  | .token position => [.leaf (significant.getD position 0)]
  | .phrase name _ _ parts => wrap grammar name (ofDerivations grammar significant parts)
  | .empty name _ parts => wrap grammar name (ofDerivations grammar significant parts)
  | .skipped start stop => [.node Grammar.errorKind (leaves significant start stop)]

def ofDerivations (grammar : Grammar) (significant : Array Nat) : List Derivation → List Draft
  | [] => []
  | part :: parts => ofDerivation grammar significant part ++ ofDerivations grammar significant parts

end

def ofForest (forest : Forest) : List Draft :=
  let parsed := match forest.root? with
    | some derivation => ofDerivation forest.grammar forest.significant derivation
    | none => []
  let rest := match forest.unparsedFrom with
    | some start => [.node Grammar.unparsedKind (leaves forest.significant start forest.significant.size)]
    | none => []
  parsed ++ rest

mutual

def bounds : Draft → Option (Nat × Nat)
  | .leaf token => some (token, token)
  | .node _ children => boundsOfAll children

def boundsOfAll : List Draft → Option (Nat × Nat)
  | [] => none
  | child :: children =>
    match bounds child, boundsOfAll children with
    | none, rest => rest
    | some here, none => some here
    | some (first, _), some (_, last) => some (first, last)

end

end Draft

end TreeLint
