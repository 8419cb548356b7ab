import TreeLint.Text.Case
import TreeLint.Text.Glyph

/-!
# Regular expressions

The terms of regular expressions with groups, back-references and looking around, and the tests on single characters
that they are built from. Options such as case folding are resolved when an expression is read, so a term carries
everything that matching it depends on.
-/

namespace TreeLint

namespace Regex

inductive Category where
  | digit
  | space
  | word
  deriving DecidableEq, Repr

/-- Whether a code point is in a class; `ascii` keeps the class within ASCII. -/
def Category.holds (category : Category) (ascii : Bool) (code : Nat) : Bool :=
  if ascii then
    match category with
    | digit => 48 ≤ code && code ≤ 57
    | space => code == 32 || (9 ≤ code && code ≤ 13)
    | word => code < 128 && isWord code
  else
    match category with
    | digit => isDecimal code
    | space => isBlank code
    | word => isWord code

inductive Folding where
  | exact
  | ascii
  | unicode
  deriving DecidableEq, Repr

def Folding.lower (folding : Folding) (code : Nat) : Nat :=
  match folding with
  | exact => code
  | ascii => if 65 ≤ code && code ≤ 90 then code + 32 else code
  | unicode => simpleLower code

def Folding.variants (folding : Folding) (code : Nat) : List Nat :=
  match folding with
  | exact => [code]
  | ascii =>
    let low := folding.lower code
    if 97 ≤ low && low ≤ 122 then [low, low - 32] else [code]
  | unicode =>
    let low := simpleLower code
    (low :: sameLetter low).flatMap lowerPreimages

inductive CharTest where
  | code (n : Nat)
  | range (lo hi : Nat)
  | category (category : Category) (negated ascii : Bool)
  /-- A letter that the folding identifies with the character lies in a range. -/
  | variant (folding : Folding) (lo hi : Nat)
  | eitherCase (lo hi : Nat)
  deriving DecidableEq, Repr

def CharTest.holds (test : CharTest) (n : Nat) : Bool :=
  match test with
  | code m => n == m
  | range lo hi => lo ≤ n && n ≤ hi
  | category c negated ascii => c.holds ascii n != negated
  | variant folding lo hi => (folding.variants n).any fun m => lo ≤ m && m ≤ hi
  | eitherCase lo hi =>
    let upper := simpleUpper n
    (lo ≤ n && n ≤ hi) || (lo ≤ upper && upper ≤ hi)

/-- A set of characters: those whose lower case under the folding passes a test, or passes none if `negated`. -/
structure CharSet where
  tests : List CharTest
  negated : Bool := false
  folding : Folding := .exact
  deriving DecidableEq, Repr

def CharSet.holds (set : CharSet) (g : Glyph) : Bool :=
  let code := set.folding.lower g.code
  (set.tests.any (·.holds code)) != set.negated

inductive Anchor where
  | textStart
  | lineStart
  | textEnd
  | lastLineEnd
  | lineEnd
  | wordEdge (negated ascii : Bool)
  deriving DecidableEq, Repr

/-- How a repetition chooses between going on and stopping. -/
inductive Greed where
  | greedy
  | reluctant
  | possessive
  deriving DecidableEq, Repr

inductive Term where
  | empty
  | set (chars : CharSet)
  | anchor (place : Anchor)
  | seq (first second : Term)
  | alt (first second : Term)
  | times (greed : Greed) (least : Nat) (most : Option Nat) (body : Term)
  | group (number : Nat) (body : Term)
  | atomic (body : Term)
  | ahead (negated : Bool) (body : Term)
  | behind (negated : Bool) (width : Nat) (body : Term)
  | again (number : Nat) (folding : Folding)
  | ifGroup (number : Nat) (yes no : Term)
  deriving Inhabited, Repr

@[simp] def Term.size : Term → Nat
  | empty | set _ | anchor _ | again _ _ => 1
  | seq a b | alt a b | ifGroup _ a b => a.size + b.size + 1
  | times _ _ _ body | group _ body | atomic body | ahead _ body | behind _ _ body => body.size + 1

end Regex

structure Regex where
  term : Regex.Term
  groupNames : List (String × Nat) := []
  deriving Inhabited, Repr

end TreeLint
