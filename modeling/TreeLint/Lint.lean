import TreeLint.Diagnostic
import TreeLint.Match.Basic
import TreeLint.Rule.Basic
import TreeLint.Suppression

/-!
# Linting

Rules are run on a tree one by one. A rule that is switched off, is for another grammar or whose severity is too low is
passed over, and one with a defect is reported. Of the other rules each match gives a finding, unless

* the predicate of the rule does not hold for it, or fails, which gives one warning per rule;
* a suppression covers the place that the finding points at;
* the rule has given as many findings as it may.

`lintTree` runs rules on a tree and `problemDiagnostics` reports what is wrong with the source itself.
-/

namespace TreeLint

namespace Lint

def spanOf (tree : Tree) (ids : List Nat) : Span :=
  let nodes := Binding.run ids
  .between (nodes.start tree) (nodes.stop tree) (nodes.line tree) (nodes.column tree) tree.path

def captureSpan? (tree : Tree) (found : Match) (name : String) : Option Span :=
  match found.captureIds? name with
  | none | some [] => none
  | some ids => some (spanOf tree ids)

def fileSpan (path : String) : Span :=
  { file := path }

def defectDiagnostic (rule : Rule) (defect : Rule.Defect) (path : String) : Diagnostic :=
  let failure := defect.failure rule.id
  { rule := rule.id, severity := "error", message := Text.ofString failure.message, span := fileSpan path,
    kind := Diagnostic.configErrorKind, code := failure.code.text }

def mishapDiagnostic (rule : Rule) (path : String) (mishap : Predicate.Mishap) : Diagnostic :=
  { rule := rule.id, severity := mishap.code.severity,
    message := Text.ofString ("predicate of rule " ++ quoted rule.id ++ " failed: " ++ mishap.message),
    span := fileSpan path, kind := Diagnostic.predicateWarningKind, code := mishap.code.text }

def finding (rule : Rule) (severity : String) (tree : Tree) (found : Match) : Diagnostic :=
  { rule := rule.id, severity, message := rule.render tree found.captures,
    span := (rule.primary.bind (captureSpan? tree found)).getD (spanOf tree found.nodes),
    secondary := rule.secondary.filterMap (captureSpan? tree found) }

inductive Verdict where
  | reported (diagnostic : Diagnostic)
  | failed (mishap : Predicate.Mishap)
  | dropped
  deriving Repr

def judge (rule : Rule) (severity : String) (tree : Tree) (suppressions : Suppressions) (found : Match) :
    Except Breakdown Verdict :=
  let holds : Predicate.Outcome Bool := match rule.predicate with
    | none => .ok true
    | some predicate => predicate.evaluate tree found.captures
  match holds with
  | .error (.breakdown breakdown) => .error breakdown
  | .error (.fault mishap) => .ok (.failed mishap)
  | .ok false => .ok .dropped
  | .ok true =>
    let diagnostic := finding rule severity tree found
    if suppressions.hides rule.id diagnostic.span then .ok .dropped else .ok (.reported diagnostic)

def isFull (limit : Option Int) (count : Nat) : Bool :=
  match limit with
  | none => false
  | some limit => limit ≤ count

structure Outcome where
  diagnostics : List Diagnostic
  warned : Bool
  /-- The guards that failed up to the last match that was looked at, the latest first. -/
  mishaps : List Predicate.Mishap

def Outcome.push (outcome : Outcome) (diagnostic : Diagnostic) : Outcome :=
  { outcome with diagnostics := diagnostic :: outcome.diagnostics }

/-- Goes through matches, each with the guards that had failed when it was found, after `count` findings; `last` are the
guards that failed in the whole tree, unless the search broke down. -/
def goThrough (judge : Match → Except Breakdown Verdict) (warn : Predicate.Mishap → Diagnostic) (limit : Option Int)
    (last : Except Breakdown (List Predicate.Mishap)) (count : Nat) (warned : Bool) :
    List (Match × List Predicate.Mishap) → Except Breakdown Outcome
  | [] => last.map fun mishaps => { diagnostics := [], warned, mishaps }
  | (found, mishaps) :: rest => do
    match ← judge found with
    | .dropped => goThrough judge warn limit last count warned rest
    | .failed mishap =>
      let outcome ← goThrough judge warn limit last count true rest
      return if warned then outcome else outcome.push (warn mishap)
    | .reported diagnostic =>
      if isFull limit (count + 1) then return { diagnostics := [diagnostic], warned, mishaps }
      else return (← goThrough judge warn limit last (count + 1) warned rest).push diagnostic

def runRule (rule : Rule) (severity : String) (tree : Tree) (config : Config) (suppressions : Suppressions) :
    Except Breakdown (List Diagnostic) := do
  let trace := Match.trace rule.pattern tree
  let last := match trace.breakdown with
    | some breakdown => .error breakdown
    | none => .ok trace.record.mishaps
  let warn := mishapDiagnostic rule tree.path
  let outcome ←
    goThrough (judge rule severity tree suppressions) warn config.maxMatchesPerRule last 0 false trace.found
  if outcome.warned then return outcome.diagnostics
  else return outcome.diagnostics ++ (outcome.mishaps.getLast?.map warn).toList

/-- Linting remembers the rules that have had their defects reported, and it may break down. -/
abbrev Linting := ExceptT Breakdown (StateM (List String))

def evaluateRule (tree : Tree) (config : Config) (suppressions : Suppressions) (rule : Rule) :
    Linting (List Diagnostic) := do
  if !config.isEnabled rule.id || rule.pattern.grammarName != tree.grammar.name then return []
  else
    match rule.defect with
    | some defect =>
      if (← get).contains rule.id then return []
      else
        modify (· ++ [rule.id])
        return [defectDiagnostic rule defect tree.path]
    | none =>
      let severity := config.severityFor rule.id rule.severity
      if config.passes severity then
        match runRule rule severity tree config suppressions with
        | .ok diagnostics => return diagnostics
        | .error breakdown => throw breakdown
      else return []

def evaluateAll (tree : Tree) (config : Config) (suppressions : Suppressions) : List Rule → Linting (List Diagnostic)
  | [] => return []
  | rule :: rules => do
    let first ← evaluateRule tree config suppressions rule
    let others ← evaluateAll tree config suppressions rules
    return first ++ others

def evaluate (rules : List Rule) (tree : Tree) (config : Config := {}) : Linting (List Diagnostic) := do
  return Diagnostic.sort (← evaluateAll tree config (.ofTree tree) rules)

def problemDiagnostic (path : String) (problem : Problem) : Diagnostic :=
  { rule := Diagnostic.syntaxErrorKind, severity := "error", message := Text.ofString problem.message,
    span := if problem.span.file.isEmpty then { problem.span with file := path } else problem.span,
    kind := Diagnostic.syntaxErrorKind, code := problem.code.text }

def lintTree (rules : List Rule) (tree : Tree) (path : String) (config : Config) : Linting (List Diagnostic) := do
  let diagnostics ← evaluate rules tree config
  return Diagnostic.sort (tree.problems.map (problemDiagnostic path) ++ diagnostics)

end Lint

def Suppressions.filter (suppressions : Suppressions) (diagnostics : List Diagnostic) : List Diagnostic :=
  diagnostics.filter fun diagnostic => !suppressions.hides diagnostic.rule diagnostic.span

def lint (grammar : Grammar) (rules : List Rule) (source : Source) (path : String := Tree.defaultPath)
    (config : Config := {}) : Except Breakdown (List Diagnostic) :=
  (((Lint.lintTree rules (Tree.parse grammar source path config) path config).run).run []).1

end TreeLint
