import TreeLint.Proofs.Parsing

/-!
# Expanding the selected derivation

* `Forest.Expands`: asking a forest for the parts of a derivation, then for the parts of these, and so on, gives parts at
  every step and comes to an end; at each step the parts lie side by side over the range and, without what was skipped,
  spell one alternative;
* `exists_expands`: this holds of the selected derivation of the start symbol.
-/

namespace TreeLint

namespace Forest

/-- A derivation that can be expanded to its tokens, with the parts that the forest gives at each step. -/
inductive Expands (forest : Forest) (kinds : Array String) : Derivation → Prop
  | token {position : Nat} : position < kinds.size → Expands forest kinds (.token position)
  | phrase {alternative : Grammar.FlatAlternative} {start stop : Nat} {parts : List Derivation} :
      alternative ∈ forest.grammar.alternatives.toList → start < stop →
        forest.children alternative.lhs start stop = .ok parts →
          Derivation.Fits kinds start stop alternative.symbols parts → (∀ part ∈ parts, Expands forest kinds part) →
            Expands forest kinds (.phrase alternative.lhs start stop parts)
  | empty {alternative : Grammar.FlatAlternative} {position : Nat} {parts : List Derivation} :
      alternative ∈ forest.grammar.alternatives.toList → forest.emptyChildren alternative.lhs position = .ok parts →
          Derivation.Fits kinds position position alternative.symbols parts →
            (∀ part ∈ parts, Expands forest kinds part) → Expands forest kinds (.empty alternative.lhs position parts)
  | skipped {start stop : Nat} : start < stop → stop ≤ kinds.size → Expands forest kinds (.skipped start stop)

variable {forest : Forest} {name : String} {start stop position : Nat}

theorem children_eq_ok {choice : Choice} (hlt : start < stop)
    (hc : choice? forest.memo (.phrase name start stop) = some choice) :
    forest.children name start stop = .ok choice.parts.reverse := by
  have hm : forest.memo[Spot.phrase name start stop]? = some (.chosen choice) := by
    unfold choice? at hc
    split at hc
    · cases hc
      assumption
    · cases hc
  have hne : ((start : Int) == stop) = false := beq_false_of_ne (by omega)
  have hnn : (decide ((start : Int) < 0) || decide ((stop : Int) < 0)) = false := by simp
  simp only [children, hne, hnn, Int.toNat_natCast, hm, Bool.false_eq_true, if_false]

theorem emptyChildren_eq_ok {parts : List Derivation} (hp : forest.grammar.emptyChildren? name position = some parts) :
    forest.emptyChildren name position = .ok parts := by
  rw [emptyChildren, hp]

private theorem expands_of_valid {kinds : Array String} (hg : ∀ gap ∈ forest.chart.gaps, gap.stop ≤ kinds.size)
    {deriv : Derivation} (hv : deriv.Valid forest.grammar kinds forest.chart.gaps)
    (he : Expanded forest.grammar forest.memo deriv) : Expands forest kinds deriv := by
  induction hv with
  | token hlt => exact .token hlt
  | phrase hm hlt hf _ ih =>
    cases he with
    | phrase hc hp =>
      exact .phrase hm hlt (children_eq_ok hlt hc) hf fun part hpr =>
        ih part hpr (hp part (List.mem_reverse.1 hpr))
  | empty hm hf _ ih =>
    cases he with
    | empty hp ha =>
      exact .empty hm (emptyChildren_eq_ok hp) hf fun part hpr => ih part hpr (ha part hpr)
  | skipped hgp hlt => exact .skipped hlt (hg _ hgp)

variable {g : Grammar} {tokens : List Token} {cfg : Config}

/-- The selected derivation of the start symbol can be expanded, and its tokens form a sentence. -/
theorem exists_expands (hg : g.Tabulated) (hp : (parse g tokens cfg).parsed = some stop) :
    ∃ deriv, (parse g tokens cfg).root? = some deriv ∧ deriv.start = 0 ∧
      deriv.stop = stop ∧ deriv.symbol? (meaningfulKinds tokens) = some (.nonterminal g.start) ∧
      Expands (parse g tokens cfg) (meaningfulKinds tokens) deriv ∧
      g.Generates g.start (deriv.positions.map ((meaningfulKinds tokens).getD · "")) := by
  obtain ⟨deriv, hr, -, hd⟩ := exists_root?_eq hg hp
  have hk := (parse_keepsake g tokens cfg).grammar_eq
  have hgp : ∀ gap ∈ (parse g tokens cfg).chart.gaps, gap.stop ≤ (meaningfulKinds tokens).size :=
    fun gap hga => Nat.le_of_lt ((faithful_parse hg tokens cfg).gap_blocked gap hga).2.1
  have hgn := hd.valid.derives
  rw [hd.symbol_eq] at hgn
  refine ⟨deriv, hr, hd.start_eq, hd.stop_eq, hd.symbol_eq, ?_, hgn⟩
  exact expands_of_valid hgp (hk.symm ▸ hd.valid) (hk.symm ▸ hd.expanded)

end Forest

end TreeLint
