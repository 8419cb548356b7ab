import TreeLint.Grammar.Flat

/-!
# Nullable nonterminals

A nonterminal is nullable when the empty sequence can be derived from it. The nullable nonterminals are found by sweeps
over the alternatives, and each is noted with the first alternative that showed it. The symbols of that alternative were
all noted before, so that following the noted alternatives comes to an end.
-/

namespace TreeLint

namespace Grammar

/-- Nonterminals with the number of an alternative that derives the empty sequence, in the order they were found. -/
abbrev NullTable := List (String × Nat)

def NullTable.covers (table : NullTable) (symbols : List FlatSymbol) : Bool :=
  symbols.all fun
    | .terminal _ => false
    | .nonterminal name => (table.lookup name).isSome

def NullTable.visit (table : NullTable) (alternative : FlatAlternative) : NullTable :=
  if (table.lookup alternative.lhs).isSome then table
  else if table.covers alternative.symbols then table ++ [(alternative.lhs, alternative.id)]
  else table

def NullTable.sweep (alternatives : List FlatAlternative) : Nat → NullTable → NullTable
  | 0, table => table
  | rounds + 1, table =>
    let next := alternatives.foldl NullTable.visit table
    if next.length == table.length then table else NullTable.sweep alternatives rounds next

def NullTable.ofAlternatives (alternatives : List FlatAlternative) : NullTable :=
  NullTable.sweep alternatives (alternatives.length + 1) []

end Grammar

end TreeLint
