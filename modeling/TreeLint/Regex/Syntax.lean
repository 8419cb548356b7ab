import TreeLint.Regex.Basic

/-!
# Regular expressions as written

An expression as it is written is a sequence of items. Options such as case folding are not resolved in it: an item may
be a group that switches options on and off for its body.

Alternatives are simplified when they are put together. What they all start with is taken out in front of them, as long
as it is an item that stands for itself, and alternatives of one character each are one set of characters.
-/

namespace TreeLint

namespace Regex

inductive Member where
  | code (n : Nat)
  | range (lo hi : Nat)
  | category (category : Category) (negated : Bool)
  deriving DecidableEq, Repr

inductive PlaceSign where
  | caret
  | dollar
  | textStart
  | textEnd
  | wordEdge (negated : Bool)
  deriving DecidableEq, Repr

inductive Item where
  | char (code : Nat) (negated : Bool)
  | set (members : List Member) (negated : Bool)
  | any
  | place (sign : PlaceSign)
  | again (number : Nat)
  | times (greed : Greed) (least : Nat) (most : Option Nat) (body : List Item)
  | capture (number : Nat) (body : List Item)
  | grouped (on off : List Char) (body : List Item)
  | atomic (body : List Item)
  | look (behind negated : Bool) (body : List Item)
  | condition (number : Nat) (yes no : List Item)
  | oneOf (options : List (List Item))
  deriving Inhabited, Repr

namespace Item

def sameSign : Item → Item → Bool
  | char a negated, char b negated' => a == b && negated == negated'
  | set a negated, set b negated' => a == b && negated == negated'
  | any, any => true
  | place a, place b => a == b
  | again a, again b => a == b
  | _, _ => false

/-- The items that a group without options and without a number stands for. -/
def unpacked : Item → List Item
  | grouped [] [] body => body
  | item => [item]

/-- The members of a set that a sequence of one item is, unless it is negated. -/
def members? : List Item → Option (List Member)
  | [char n false] => some [.code n]
  | [set members false] => some members
  | _ => none

end Item

def commonStart : List Item → List (List Item) → List Item
  | [], _ => []
  | item :: rest, others =>
    if others.all fun other => other.head?.any item.sameSign then item :: commonStart rest (others.map List.tail)
    else []

def alternation : List (List Item) → List Item
  | [] => []
  | [only] => only
  | first :: others =>
    let common := commonStart first others
    let rest := (first :: others).map (List.drop common.length)
    match rest.mapM Item.members? with
    | some members => common ++ [.set members.flatten.eraseDups false]
    | none => common ++ [.oneOf rest]

/-- A number that is greater than every number of repetitions that is counted. -/
def uncounted : Nat := 4294967295

/-- How many characters items take: at least `least`, and at most `most`. -/
structure Width where
  least : Nat := 0
  most : Nat := 0
  deriving DecidableEq, Repr

def Width.clamp (width : Width) : Width :=
  { least := min width.least (uncounted - 1), most := min width.most uncounted }

def Width.add (a b : Width) : Width :=
  { least := a.least + b.least, most := a.most + b.most }

def Width.either (a b : Width) : Width :=
  { least := min a.least b.least, most := max a.most b.most }

def Width.times (least : Nat) (most : Option Nat) (body : Width) : Width :=
  { least := body.least * least, most := body.most * most.getD uncounted }

mutual

def Item.width (groups : List (Option Width)) : Item → Width
  | .char _ _ | .set _ _ | .any => { least := 1, most := 1 }
  | .place _ | .look _ _ _ => {}
  | .again number => (groups[number]?.bind id).getD {}
  | .times _ least most body => (Width.clamp (widthOfAll groups body)).times least most
  | .capture _ body | .grouped _ _ body | .atomic body => Width.clamp (widthOfAll groups body)
  | .condition _ yes no => (Width.clamp (widthOfAll groups yes)).either (Width.clamp (widthOfAll groups no))
  | .oneOf options => widthOfEither groups options

def widthOfAll (groups : List (Option Width)) : List Item → Width
  | [] => {}
  | item :: items => (item.width groups).add (widthOfAll groups items)

def widthOfEither (groups : List (Option Width)) : List (List Item) → Width
  | [] => { least := uncounted - 1, most := 0 }
  | option :: options => (Width.clamp (widthOfAll groups option)).either (widthOfEither groups options)

end

def sequenceWidth (groups : List (Option Width)) (items : List Item) : Width :=
  (widthOfAll groups items).clamp

end Regex

end TreeLint
