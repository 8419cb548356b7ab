import TreeLint.Proofs.Parsing

/-!
# Sentences are what is parsed without problems

A list of tokens is parsed without problems exactly if the kinds of its significant tokens form a sentence of the start
symbol. This needs no restriction on the grammar: it may be left recursive, ambiguous or cyclic, and its nonterminals may
be nullable or derive nothing at all.
-/

namespace TreeLint

namespace Forest

variable {grammar : Grammar} {tokens : List Token} {cfg : Config}

/-- Parsing is without problems if the chart was read to its end without gaps and accepts all of it. -/
theorem problems_eq_nil_iff (grammar : Grammar) (tokens : List Token) (cfg : Config) :
    (parse grammar tokens cfg).problems = [] ↔
      (parse grammar tokens cfg).chart.gaps = [] ∧ (parse grammar tokens cfg).chart.stopped = none ∧
        (parse grammar tokens cfg).chart.accepts grammar (meaningful tokens).size := by
  cases parse_outcome grammar tokens cfg with
  | complete hs ha _ _ hp =>
    rw [hp, List.map_eq_nil_iff]
    exact ⟨fun hg => ⟨hg, hs, ha⟩, And.left⟩
  | partly hn _ _ hp =>
    have hne : (parse grammar tokens cfg).problems ≠ [] := by simp [hp]
    exact ⟨fun hnl => absurd hnl hne, fun hall => absurd hall.2 hn⟩

/-- A forest without problems holds a derivation of all significant tokens that skips none. -/
theorem complete_of_problems_eq_nil (hg : grammar.Tabulated) (hn : (parse grammar tokens cfg).problems = []) :
    (parse grammar tokens cfg).parsed = some (meaningful tokens).size ∧
      (parse grammar tokens cfg).unparsedFrom = none ∧
      ∃ deriv, (parse grammar tokens cfg).root? = some deriv ∧
        deriv.start = 0 ∧ deriv.stop = (meaningful tokens).size ∧
        deriv.symbol? (meaningfulKinds tokens) = some (.nonterminal grammar.start) ∧
        (parse grammar tokens cfg).recoveries = 0 := by
  obtain ⟨hgp, hs, ha⟩ := (problems_eq_nil_iff grammar tokens cfg).1 hn
  cases parse_outcome grammar tokens cfg with
  | partly hnt => exact absurd ⟨hs, ha⟩ hnt
  | complete _ _ hp hu =>
    obtain ⟨deriv, hr, hrc, hd⟩ := exists_root?_eq hg hp
    have hv := hd.valid
    rw [hgp] at hv
    exact ⟨hp, hu, deriv, hr, hd.start_eq, hd.stop_eq, hd.symbol_eq, hrc.trans hv.skips_eq_zero⟩

/-- Parsing finds no problem exactly in the sentences of the start symbol, and then it leaves nothing out. -/
theorem problems_eq_nil_iff_generates {description : Grammar.Description}
    (hbuild : Grammar.build description = .ok grammar) (tokens : List Token) (config : Config) :
    ((parse grammar tokens config).problems = [] ↔
      grammar.Generates grammar.start ((tokens.filter fun token => !token.trivia).map (·.kind))) ∧
    ((parse grammar tokens config).problems = [] →
      (parse grammar tokens config).parsed = some (tokens.filter fun token => !token.trivia).length ∧
        (parse grammar tokens config).unparsedFrom = none ∧
        ∃ derivation, (parse grammar tokens config).root? = some derivation ∧
          derivation.start = 0 ∧ derivation.stop = (tokens.filter fun token => !token.trivia).length ∧
          derivation.symbol? (meaningfulKinds tokens) = some (.nonterminal grammar.start) ∧
          (parse grammar tokens config).recoveries = 0) := by
  have hg := (Grammar.built_of_build hbuild).tabulated
  have hf := faithful_parse hg tokens config
  refine ⟨?_, complete_of_problems_eq_nil hg⟩
  rw [problems_eq_nil_iff, ← toList_meaningfulKinds, ← size_meaningfulKinds]
  constructor
  -- without problems nothing was skipped, so the chart speaks about the whole word
  · rintro ⟨hgp, -, ha⟩
    have hgn := hf.generates_of_accepts hg hgp ha
    rwa [Chart.word, List.drop_zero, Nat.sub_zero, List.take_of_length_le (by simp)] at hgn
  · exact hf.accepts_of_generates hg

/-- One token of the cyclic grammar is parsed without problems. -/
theorem problems_eq_nil_of_loop : ∃ grammar, Grammar.build Grammar.loop = .ok grammar ∧
    (parse grammar [{ kind := "a", kindId := 0, start := 0, stop := 1, text := [] }] {}).problems = [] := by
  obtain ⟨grammar, hb⟩ := Grammar.exists_build_loop
  have hg := (Grammar.built_of_build hb).generates_loop.1
  exact ⟨grammar, hb, (problems_eq_nil_iff_generates hb _ _).1.2 hg⟩

end Forest

end TreeLint
