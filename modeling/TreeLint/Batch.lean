import TreeLint.Lint

/-!
# Batches

A batch lints many sources with the same rules. Each source is linted by itself; a source that cannot be had, or on
which linting breaks down, gives nothing. The defects of rules are reported once, for the batch as a whole and under no
file. All diagnostics are put in one order.
-/

namespace TreeLint

namespace Batch

abbrev Sources := List (String × Option Source)

/-- Sources with one for each path: the last that is given, at the place of the first. -/
def Sources.distinct (sources : Sources) : Sources :=
  (sources.map (·.1)).eraseDups.map fun path => (path, ((sources.reverse.lookup path).getD none))

def defects (rules : List Rule) : List Diagnostic :=
  rules.filterMap fun rule => rule.defect.map fun defect => Lint.defectDiagnostic rule defect ""

def job (grammar : Grammar) (rules : List Rule) (config : Config) : String × Option Source → List Diagnostic
  | (path, some source) => (TreeLint.lint grammar rules source path config).toOption.getD []
  | (_, none) => []

def lint (grammar : Grammar) (rules : List Rule) (sources : Sources) (config : Config := {}) : List Diagnostic :=
  let enabled := rules.filter fun rule => config.isEnabled rule.id
  let runnable := enabled.filter fun rule => rule.defect.isNone
  Diagnostic.sort (defects enabled ++ sources.flatMap (job grammar runnable config))

end Batch

end TreeLint
