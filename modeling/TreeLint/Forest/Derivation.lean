import TreeLint.Grammar.Build

/-!
# Derivations

A derivation tells how a nonterminal was recognized over a range of significant tokens: token by token and phrase by
phrase, with the tokens that were skipped on the way. Nonterminals that derive nothing have derivations too, and they
follow the table of nullable nonterminals.
-/

namespace TreeLint

inductive Derivation where
  | token (position : Nat)
  | phrase (name : String) (start stop : Nat) (children : List Derivation)
  | empty (name : String) (position : Nat) (children : List Derivation)
  | skipped (start stop : Nat)
  deriving Inhabited, Repr

namespace Grammar

/-- The derivation of nothing from a nonterminal, by a table of nullable nonterminals with the latest in front. -/
def emptyDerivationIn (alternatives : Array FlatAlternative) (position : Nat) : NullTable → String → Derivation
  | [], name => .empty name position []
  | (known, id) :: earlier, name =>
    if known == name then
      .empty name position ((alternatives.getD id default).symbols.map fun symbol =>
        emptyDerivationIn alternatives position earlier symbol.name)
    else emptyDerivationIn alternatives position earlier name

def emptyDerivation (grammar : Grammar) (name : String) (position : Nat) : Derivation :=
  emptyDerivationIn grammar.alternatives position grammar.nullTable.reverse name

def emptyChildren? (grammar : Grammar) (name : String) (position : Nat) : Option (List Derivation) :=
  (grammar.nullTable.lookup name).map fun id =>
    (grammar.alternatives.getD id default).symbols.map fun symbol => grammar.emptyDerivation symbol.name position

end Grammar

end TreeLint
