import TreeLint.Regex.Reader

/-!
# Compiling regular expressions

The items of an expression become a term, and the options in force at each place are resolved. What the written form
does not rule out yet is checked on the way, from left to right and from the outside in.
-/

namespace TreeLint

namespace Regex

structure Options where
  ignoreCase : Bool := false
  multiline : Bool := false
  dotAll : Bool := false
  ascii : Bool := false
  template : Bool := false
  deriving DecidableEq, Repr

def Options.put (options : Options) (letter : Char) (on : Bool) : Options :=
  match letter with
  | 'i' => { options with ignoreCase := on }
  | 'm' => { options with multiline := on }
  | 's' => { options with dotAll := on }
  | 'a' => { options with ascii := on }
  | 'u' => { options with ascii := !on }
  | 't' => { options with template := on }
  | _ => options

def Options.putAll (options : Options) (letters : List Char) (on : Bool) : Options :=
  letters.foldl (fun options letter => options.put letter on) options

def Options.folding (options : Options) : Folding :=
  if !options.ignoreCase then .exact else if options.ascii then .ascii else .unicode

def lastOfPlane : Nat := 0xFFFF

def letterTests (folding : Folding) (n : Nat) : List CharTest :=
  let low := folding.lower n
  match folding with
  | .unicode => .code low :: (sameLetter low).map .code
  | _ => [.code low]

/-- The tests for a member of a set. Under a folding, a letter past the first plane stands for itself alone, and a range
that goes past it also holds what has its upper case in it. -/
def Member.tests (options : Options) : Member → List CharTest
  | code n => if lastOfPlane < options.folding.lower n then [.code n] else letterTests options.folding n
  | range lo hi =>
    match options.folding with
    | .exact => [.range lo hi]
    | folding =>
      .variant folding lo (min hi lastOfPlane) :: (if lastOfPlane < hi then [.eitherCase lo hi] else [])
  | category c negated => [.category c negated options.ascii]

def PlaceSign.anchor (options : Options) : PlaceSign → Anchor
  | caret => if options.multiline then .lineStart else .textStart
  | dollar => if options.multiline then .lineEnd else .lastLineEnd
  | textStart => .textStart
  | textEnd => .textEnd
  | wordEdge negated => .wordEdge negated options.ascii

def Greed.word : Greed → String
  | greedy => "MAX_REPEAT"
  | reluctant => "MIN_REPEAT"
  | possessive => "POSSESSIVE_REPEAT"

def faultOf (message : String) : Stop Fault :=
  .fault { message, position := none }

mutual

def Item.compile (groups : List (Option Width)) (options : Options) : Item → Except (Stop Fault) Term
  | .char n negated => .ok (.set { tests := letterTests options.folding n, negated, folding := options.folding })
  | .set members negated =>
    .ok (.set { tests := members.flatMap (Member.tests options), negated, folding := options.folding })
  | .any => .ok (.set { tests := if options.dotAll then [] else [.code 10], negated := true })
  | .place sign => .ok (.anchor (sign.anchor options))
  | .again number => .ok (.again number options.folding)
  | .times greed least most body =>
    if options.template then .error (faultOf ("internal: unsupported template operator " ++ greed.word))
    else do return .times greed least most (← compileAll groups options body)
  | .capture number body => do return .group number (← compileAll groups options body)
  | .grouped on off body => compileAll groups ((options.putAll on true).putAll off false) body
  | .atomic body => do return .atomic (← compileAll groups options body)
  | .look behind negated body =>
    if behind then
      let width := sequenceWidth groups body
      if width.least != width.most then .error (faultOf "look-behind requires fixed-width pattern")
      else do return .behind negated width.least (← compileAll groups options body)
    else do return .ahead negated (← compileAll groups options body)
  | .condition number yes no => do
    let yes ← compileAll groups options yes
    let no ← compileAll groups options no
    return .ifGroup number yes no
  | .oneOf choices => compileEither groups options choices

def compileAll (groups : List (Option Width)) (options : Options) : List Item → Except (Stop Fault) Term
  | [] => .ok .empty
  | [item] => item.compile groups options
  | item :: items => do
    let first ← item.compile groups options
    return .seq first (← compileAll groups options items)

def compileEither (groups : List (Option Width)) (options : Options) : List (List Item) → Except (Stop Fault) Term
  | [] => .ok .empty
  | [choice] => compileAll groups options choice
  | choice :: choices => do
    let first ← compileAll groups options choice
    return .alt first (← compileEither groups options choices)

end

def Term.reach : Term → Nat
  | empty | set _ | anchor _ | again _ _ => 0
  | seq a b | alt a b | ifGroup _ a b => max a.reach b.reach
  | times _ _ _ body | group _ body | atomic body | ahead _ body => body.reach
  | behind _ width body => max width body.reach

/-- A width that is greater than every one that can be looked back. -/
def reachLimit : Nat := 2147483648

def read (source : Text) : Except (Stop Fault) Regex := do
  let written ← readItems source
  let options := ({} : Options).putAll written.letters true
  let term ← compileAll written.groups options written.items
  if reachLimit ≤ term.reach then throw (.breakdown .lookBehind)
  return { term, groupNames := written.names }

def readString (source : String) : Except (Stop String) Regex :=
  let text := Text.ofString source
  (read text).mapError (Stop.map (·.text text))

end Regex

end TreeLint
