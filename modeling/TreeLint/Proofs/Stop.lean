import TreeLint.Grammar.Build

/-!
# Computations that did not end early

A computation in several steps succeeds if and only if its steps do. Checks of grammars and patterns are opened by these
equivalences, one step after the other.
-/

namespace TreeLint

variable {ε α : Type} {outcome : Except ε α} {value : α}

theorem bind_eq_ok_iff {β : Type} {first : Except ε α} {next : α → Except ε β} {value : β} :
    (first >>= next) = .ok value ↔ ∃ found, first = .ok found ∧ next found = .ok value := by
  cases first with
  | error | ok => simp [bind, Except.bind]

theorem mapError_eq_ok_iff {δ : Type} {change : ε → δ} :
    outcome.mapError change = .ok value ↔ outcome = .ok value := by
  cases outcome with
  | error => exact ⟨nofun, nofun⟩
  | ok => exact ⟨fun h => congrArg _ (Except.ok.inj h), fun h => congrArg _ (Except.ok.inj h)⟩

theorem liftM_eq_ok_iff : (liftM outcome : Except (Stop ε) α) = .ok value ↔ outcome = .ok value :=
  mapError_eq_ok_iff

theorem pure_eq_ok_iff {found value : α} : (pure found : Except ε α) = .ok value ↔ found = value :=
  Except.ok.injEq found value ▸ Iff.rfl

theorem throw_ne_ok {stop : ε} : (throw stop : Except ε α) ≠ .ok value :=
  nofun

theorem exists_eq_ok (h : outcome.isOk = true) : ∃ value, outcome = .ok value := by
  cases outcome with
  | error => cases h
  | ok value => exact ⟨value, rfl⟩

theorem Grammar.Defect.unless_eq_ok_iff {defect : Grammar.Defect} {fine : Bool} :
    defect.unless fine = .ok () ↔ fine = true := by
  cases fine <;> simp [Grammar.Defect.unless]

end TreeLint
