import TreeLint.Grammar.Basic

/-!
# Flat alternatives

The parser knows no groups: each group becomes a hidden nonterminal with two alternatives of its own, so that every
alternative is a plain sequence of terminals and nonterminals.

* the groups of a production `p` become `p#1`, `p#2`, … in the order in which they open;
* an optional group prefers one round to none, a starred group prefers none, and a group with `+` prefers one round;
  more rounds go through the hidden nonterminal itself, on the left;
* the alternatives of inner groups come before those of the group around them, and those before the alternative that
  holds the group.
-/

namespace TreeLint

namespace Grammar

inductive FlatSymbol where
  | terminal (kind : String)
  | nonterminal (name : String)
  deriving DecidableEq, Hashable, Inhabited, Repr

def FlatSymbol.name : FlatSymbol → String
  | terminal kind => kind
  | nonterminal name => name

def FlatSymbol.isTerminal : FlatSymbol → Bool
  | terminal _ => true
  | nonterminal _ => false

structure FlatRule where
  lhs : String
  symbols : List FlatSymbol
  assoc : Assoc := .left
  deriving DecidableEq, Inhabited, Repr

structure FlatAlternative extends FlatRule where
  id : Nat
  rank : Nat
  deriving DecidableEq, Inhabited, Repr

def hiddenName (owner : String) (index : Nat) : String :=
  owner ++ "#" ++ toString index

def groupRules (hidden : String) (quantifier : Quantifier) (body : List FlatSymbol) : List FlatRule :=
  let once : FlatRule := { lhs := hidden, symbols := body }
  let none : FlatRule := { lhs := hidden, symbols := [] }
  let again : FlatRule := { lhs := hidden, symbols := .nonterminal hidden :: body }
  match quantifier with
  | .optional => [once, none]
  | .star => [none, again]
  | .plus | .other _ => [once, again]

mutual

/-- The flat symbol for a symbol, the alternatives of the groups inside it, and the number of groups opened so far. -/
def flattenSymbol (isToken : String → Bool) (owner : String) (count : Nat) : Symbol → FlatSymbol × List FlatRule × Nat
  | .literal text => (.terminal text, [], count)
  | .ref name => (if isToken name then .terminal name else .nonterminal name, [], count)
  | .group quantifier symbols =>
    let hidden := hiddenName owner (count + 1)
    let (body, inner, count) := flattenSymbols isToken owner (count + 1) symbols
    (.nonterminal hidden, inner ++ groupRules hidden quantifier body, count)

def flattenSymbols (isToken : String → Bool) (owner : String) (count : Nat) :
    List Symbol → List FlatSymbol × List FlatRule × Nat
  | [] => ([], [], count)
  | symbol :: symbols =>
    let (first, inner, count) := flattenSymbol isToken owner count symbol
    let (rest, others, count) := flattenSymbols isToken owner count symbols
    (first :: rest, inner ++ others, count)

end

def flattenAlternatives (isToken : String → Bool) (owner : String) (count : Nat) : List Alternative → List FlatRule
  | [] => []
  | alternative :: alternatives =>
    let (symbols, inner, count) := flattenSymbols isToken owner count alternative.symbols
    inner ++ { lhs := owner, symbols, assoc := alternative.assoc } ::
      flattenAlternatives isToken owner count alternatives

def flatten (isToken : String → Bool) (productions : List Production) : List FlatRule :=
  productions.flatMap fun production => flattenAlternatives isToken production.name 0 production.alternatives

def numberRules (before : List FlatRule) : List FlatRule → List FlatAlternative
  | [] => []
  | rule :: rules =>
    { rule with id := before.length, rank := before.countP (·.lhs == rule.lhs) } ::
      numberRules (before ++ [rule]) rules

def flatAlternatives (isToken : String → Bool) (productions : List Production) : List FlatAlternative :=
  numberRules [] (flatten isToken productions)

end Grammar

end TreeLint
