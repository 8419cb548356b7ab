import TreeLint.Text.Quoted

/-!
# Configuration

Settings for parsing, matching and evaluation. They are read from a table of named values, in which `-` and `_` in names
are the same; unknown names are reported and left out.
-/

namespace TreeLint

def severities : List String :=
  ["info", "style", "warning", "error"]

/-- The place of a severity among all; unknown ones rank below the others. -/
def severityRank (severity : String) : Int :=
  match severities.idxOf? severity with
  | some rank => rank
  | none => -1

structure Config where
  recoverySkipBound : Int := 8
  /-- How many findings one rule may report on one source. -/
  maxMatchesPerRule : Option Int := none
  severityOverrides : List (String × String) := []
  minSeverity : String := "info"
  disabledRules : List String := []
  workers : Int := 4
  executor : String := "thread"
  cacheTrees : Bool := true
  deriving DecidableEq, Inhabited, Repr

inductive Setting where
  | none
  | bool (value : Bool)
  | int (value : Int)
  | text (value : String)
  | list (values : List String)
  | table (entries : List (String × String))
  deriving Repr

namespace Config

def warnings (config : Config) : List String :=
  (if config.recoverySkipBound < 0 then ["recovery_skip_bound must be non-negative"] else []) ++
  (match config.maxMatchesPerRule with
    | some limit => if limit ≤ 0 then ["max_matches_per_rule must be positive"] else []
    | none => []) ++
  (if severities.contains config.minSeverity then [] else ["unknown min_severity " ++ quoted config.minSeverity]) ++
  (config.severityOverrides.filterMap fun (rule, severity) =>
    if severities.contains severity then none
    else some ("unknown severity " ++ quoted severity ++ " in override for " ++ quoted rule)) ++
  (if config.workers ≤ 0 then ["workers must be positive"] else []) ++
  (if ["thread", "process"].contains config.executor then [] else ["unknown executor " ++ quoted config.executor])

def severityFor (config : Config) (rule default : String) : String :=
  (config.severityOverrides.lookup rule).getD default

def isEnabled (config : Config) (rule : String) : Bool :=
  !config.disabledRules.contains rule

def passes (config : Config) (severity : String) : Bool :=
  severityRank config.minSeverity ≤ severityRank severity

def names : List String :=
  ["recovery_skip_bound", "max_matches_per_rule", "severity_overrides", "min_severity", "disabled_rules", "workers",
    "executor", "cache_trees"]

def settingName (key : String) : String :=
  String.ofList (key.toList.map fun c => if c == '-' then '_' else c)

/-- The configuration with one setting changed; `none` when the value is not of the setting's type. -/
def set? (config : Config) (name : String) (value : Setting) : Option Config :=
  match name, value with
  | "recovery_skip_bound", .int n => some { config with recoverySkipBound := n }
  | "max_matches_per_rule", .int n => some { config with maxMatchesPerRule := some n }
  | "max_matches_per_rule", .none => some { config with maxMatchesPerRule := none }
  | "severity_overrides", .table entries => some { config with severityOverrides := entries }
  | "severity_overrides", .list [] => some { config with severityOverrides := [] }
  | "min_severity", .text s => some { config with minSeverity := s }
  | "disabled_rules", .list ids => some { config with disabledRules := ids }
  | "disabled_rules", .text s => some { config with disabledRules := s.toList.map Char.toString }
  | "disabled_rules", .table entries => some { config with disabledRules := entries.map (·.1) }
  | "workers", .int n => some { config with workers := n }
  | "executor", .text s => some { config with executor := s }
  | "cache_trees", .bool b => some { config with cacheTrees := b }
  | _, _ => none

def setAll? (config : Config) : List (String × Setting) → Option Config
  | [] => some config
  | (name, value) :: entries => (config.set? name value).bind fun config => config.setAll? entries

/-- The configuration that a table describes, with what is logged on the way: first the names that are unknown, then the
warnings. A rule that is listed twice counts once. `none` when a value is not of its setting's type. -/
def ofTable? (entries : List (String × Setting)) : Option (Config × List String) :=
  let unknown := entries.filterMap fun (key, _) =>
    if names.contains (settingName key) then none else some ("EngineConfig: ignoring unknown key " ++ quoted key)
  let known := entries.filterMap fun (key, value) =>
    if names.contains (settingName key) then some (settingName key, value) else none
  (setAll? {} known).map fun config =>
    ({ config with disabledRules := config.disabledRules.eraseDups },
      unknown ++ config.warnings.map ("EngineConfig: " ++ ·))

end Config

end TreeLint
