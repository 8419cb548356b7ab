import TreeLint.Config
import TreeLint.Forest.Select
import TreeLint.Token

/-!
# Parsing

The significant tokens of a source are read into a chart, and a derivation of the start symbol is selected: over all of
them if there is one, else over as many leading tokens as possible. The rest is left unparsed.

* every gap inside the parsed part is a problem that tells what was skipped;
* an unparsed rest, or an unexpected end, is one more problem, marked as terminal.
-/

namespace TreeLint

structure Forest where
  grammar : Grammar
  tokens : Array Token
  significant : Array Nat
  chart : Chart
  parsed : Option Nat
  unparsedFrom : Option Nat
  problems : List Problem
  memo : Forest.Memo

namespace Forest

def describeKind (grammar : Grammar) (kind : String) : String :=
  match grammar.tokenRule? kind with
  | some rule => if rule.literal then quoted kind else kind
  | none => kind

def expectedText (grammar : Grammar) (expected : List String) : String :=
  match expected.map (describeKind grammar) with
  | [] => ""
  | [kind] => "; expected " ++ kind
  | kinds => "; expected one of " ++ ", ".intercalate kinds

def unexpectedText (grammar : Grammar) (token : Token) (expected : List String) : String :=
  "unexpected " ++ describeKind grammar token.kind ++ " " ++ token.text.quoted ++ expectedText grammar expected

def tokenSpan (first last : Token) : Span :=
  Span.between first.start last.stop first.line first.column

def gapProblem (grammar : Grammar) (tokens : Array Token) (chart : Chart) (gap : Chart.Gap) : Problem :=
  let expected := Chart.expected (chart.column gap.start)
  let skipped := gap.stop - gap.start
  let first := tokens.getD gap.start default
  { span := tokenSpan first (tokens.getD (gap.stop - 1) default)
    message := unexpectedText grammar first expected ++ "; skipped " ++ toString skipped ++ " token" ++
      (if skipped == 1 then "" else "s")
    expected }

def terminalProblem (grammar : Grammar) (tokens : Array Token) (chart : Chart) (unparsedFrom : Nat) : Problem :=
  let span := if tokens.isEmpty then Span.between 0 0 1 1
    else tokenSpan (tokens.getD unparsedFrom default) (tokens.getD (tokens.size - 1) default)
  match chart.stopped with
  | none =>
    let expected := Chart.expected (chart.column tokens.size)
    { span, message := "unexpected end of input" ++ expectedText grammar expected, code := .unexpectedEnd, expected,
      terminal := true }
  | some position =>
    let expected := Chart.expected (chart.column position)
    { span, message := unexpectedText grammar (tokens.getD position default) expected, expected, terminal := true }

def solveRoot (grammar : Grammar) (chart : Chart) (parsed : Option Nat) : Memo :=
  match parsed with
  | some 0 | none => ∅
  | some stop => solve grammar chart grammar.start 0 stop

def parse (grammar : Grammar) (tokens : List Token) (config : Config) : Forest :=
  let all := tokens.toArray
  let significant := ((tokens.zipIdx.filter fun (token, _) => !token.trivia).map (·.2)).toArray
  let meaningful := (tokens.filter fun token => !token.trivia).toArray
  let count := meaningful.size
  let chart := Chart.read grammar (meaningful.map (·.kind)) config.recoverySkipBound
  if chart.stopped.isNone && chart.accepts grammar count then
    { grammar, tokens := all, significant, chart, parsed := some count, unparsedFrom := none,
      problems := chart.gaps.map (gapProblem grammar meaningful chart),
      memo := solveRoot grammar chart (some count) }
  else
    let parsed := chart.lastAccepted? grammar (chart.stopped.getD count)
    let unparsedFrom := parsed.getD 0
    { grammar, tokens := all, significant, chart, parsed,
      unparsedFrom := if count == 0 then none else some unparsedFrom,
      problems := (chart.gaps.filter fun gap => gap.start < unparsedFrom).map (gapProblem grammar meaningful chart) ++
        [terminalProblem grammar meaningful chart unparsedFrom],
      memo := solveRoot grammar chart parsed }

def recoveries (forest : Forest) : Nat :=
  match forest.parsed with
  | some 0 | none => 0
  | some stop => ((choice? forest.memo (.phrase forest.grammar.start 0 stop)).map (·.skips)).getD 0

inductive Absence where
  | notNullable (name : String)
  | unreached (name : String) (start stop : Int)
  | dead (name : String) (start stop : Int)

def Absence.text : Absence → String
  | notNullable name => name
  | unreached name start stop =>
    "('n', " ++ quoted name ++ ", " ++ toString start ++ ", " ++ toString stop ++ ")"
  | dead name start stop => "(" ++ quoted name ++ ", " ++ toString start ++ ", " ++ toString stop ++ ")"

def emptyChildren (forest : Forest) (name : String) (position : Nat) : Except Absence (List Derivation) :=
  match forest.grammar.emptyChildren? name position with
  | some children => .ok children
  | none => .error (.notNullable name)

def children (forest : Forest) (name : String) (start stop : Int) : Except Absence (List Derivation) :=
  if start == stop then forest.emptyChildren name start.toNat
  else if start < 0 || stop < 0 then .error (.unreached name start stop)
  else
    match forest.memo[Spot.phrase name start.toNat stop.toNat]? with
    | none => .error (.unreached name start stop)
    | some (.chosen choice) => .ok choice.parts.reverse
    | some _ => .error (.dead name start stop)

def token? (forest : Forest) (position : Int) : Option Token := do
  let place ← resolveIndex? forest.significant.size position
  forest.tokens[forest.significant.getD place 0]?

def root? (forest : Forest) : Option Derivation :=
  match forest.parsed with
  | none => none
  | some 0 => some (forest.grammar.emptyDerivation forest.grammar.start 0)
  | some stop =>
    (choice? forest.memo (.phrase forest.grammar.start 0 stop)).map fun choice =>
      .phrase forest.grammar.start 0 stop choice.parts.reverse

end Forest

end TreeLint
