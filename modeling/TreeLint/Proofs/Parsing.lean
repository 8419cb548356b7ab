import TreeLint.Forest.Parse
import TreeLint.Proofs.Recognition
import TreeLint.Proofs.SelectedParts

/-!
# Parsed forests

What the result of parsing a list of tokens consists of.

* `parse_chart`: its chart is that of the kinds of the significant tokens, so it is faithful;
* `parse_outcome`: either everything was read and accepted, or the longest accepted beginning was taken and the rest was
  left;
* `exists_root?_eq`: a derivation of the start symbol over the accepted tokens has been selected.
-/

namespace TreeLint

open List

namespace Forest

open Chart (Item Link Founded Sane)

variable {g : Grammar} {tokens : List Token} {cfg : Config} {forest : Forest}

/-! ## The parts of a forest -/

def meaningful (tokens : List Token) : Array Token :=
  (tokens.filter fun token => !token.trivia).toArray

def meaningfulKinds (tokens : List Token) : Array String :=
  (meaningful tokens).map (·.kind)

theorem size_meaningfulKinds (tokens : List Token) : (meaningfulKinds tokens).size = (meaningful tokens).size := by
  rw [meaningfulKinds, Array.size_map]

theorem toList_meaningfulKinds (tokens : List Token) :
    (meaningfulKinds tokens).toList = (tokens.filter fun token => !token.trivia).map (·.kind) := by
  rw [meaningfulKinds, meaningful, Array.toList_map]

/-- How the parse of a list of tokens comes out. -/
inductive Outcome (grammar : Grammar) (tokens : List Token) (forest : Forest) : Prop
  | complete : forest.chart.stopped = none → forest.chart.accepts grammar (meaningful tokens).size →
      forest.parsed = some (meaningful tokens).size → forest.unparsedFrom = none →
        forest.problems = forest.chart.gaps.map (gapProblem grammar (meaningful tokens) forest.chart) →
          Outcome grammar tokens forest
  | partly : ¬ (forest.chart.stopped = none ∧ forest.chart.accepts grammar (meaningful tokens).size) →
      forest.parsed = forest.chart.lastAccepted? grammar (forest.chart.stopped.getD (meaningful tokens).size) →
        forest.unparsedFrom = (if (meaningful tokens).size == 0 then none else some (forest.parsed.getD 0)) →
          forest.problems = (forest.chart.gaps.filter fun gap => gap.start < forest.parsed.getD 0).map
            (gapProblem grammar (meaningful tokens) forest.chart) ++
              [terminalProblem grammar (meaningful tokens) forest.chart (forest.parsed.getD 0)] →
                Outcome grammar tokens forest

theorem terminal_terminalProblem (g : Grammar) (tokens : Array Token) (chart : Chart) (start : Nat) :
    (terminalProblem g tokens chart start).terminal := by
  unfold terminalProblem
  cases chart.stopped <;> rfl

theorem parse_outcome (g : Grammar) (tokens : List Token) (cfg : Config) :
    Outcome g tokens (parse g tokens cfg) := by
  unfold parse
  dsimp only
  split
  next hd =>
    rw [Bool.and_eq_true, Option.isNone_iff_eq_none] at hd
    exact .complete hd.1 hd.2 rfl rfl rfl
  next hd =>
    rw [Bool.and_eq_true, Option.isNone_iff_eq_none] at hd
    exact .partly hd rfl rfl rfl

structure Keepsake (grammar : Grammar) (tokens : List Token) (config : Config) (forest : Forest) : Prop where
  grammar_eq : forest.grammar = grammar
  tokens_eq : forest.tokens = tokens.toArray
  significant_eq : forest.significant = ((tokens.zipIdx.filter fun entry => !entry.1.trivia).map (·.2)).toArray
  chart_eq : forest.chart = Chart.read grammar (meaningfulKinds tokens) config.recoverySkipBound
  memo_eq : forest.memo = solveRoot grammar forest.chart forest.parsed

theorem parse_keepsake (g : Grammar) (tokens : List Token) (cfg : Config) :
    Keepsake g tokens cfg (parse g tokens cfg) := by
  unfold parse
  dsimp only
  split <;> exact ⟨rfl, rfl, rfl, rfl, rfl⟩

theorem faithful_parse (hg : g.Tabulated) (tokens : List Token) (cfg : Config) :
    Chart.Faithful g (meaningfulKinds tokens) (parse g tokens cfg).chart := by
  rw [(parse_keepsake g tokens cfg).chart_eq]
  exact Chart.faithful_read hg _ _

/-! ## Accepted tokens -/

theorem Outcome.accepts (h : Outcome g tokens forest) {stop : Nat} (hp : forest.parsed = some stop) :
    forest.chart.accepts g stop := by
  cases h with
  | complete _ ha hs =>
    rw [hp] at hs
    cases hs
    exact ha
  | partly _ hl =>
    rw [hp] at hl
    exact (Chart.accepts_of_lastAccepted? hl.symm).1

theorem Outcome.le (h : Outcome g tokens forest)
    (hf : Chart.Faithful g (meaningfulKinds tokens) forest.chart) :
    forest.parsed.getD 0 ≤ (meaningful tokens).size := by
  cases h with
  | complete _ _ hp =>
    rw [hp]
    exact Nat.le_refl _
  | partly _ hl =>
    cases hp : forest.parsed with
    | none => exact Nat.zero_le _
    | some stop =>
      rw [hp] at hl
      have hle := (Chart.accepts_of_lastAccepted? hl.symm).2
      cases hs : forest.chart.stopped with
      | none => rwa [hs] at hle
      | some pos =>
        have hlt := (hf.stop_blocked hs).1
        rw [hs, Option.getD_some] at hle
        rw [size_meaningfulKinds] at hlt
        rw [Option.getD_some]
        omega

theorem Outcome.unparsedFrom_eq (h : Outcome g tokens forest)
    (hf : Chart.Faithful g (meaningfulKinds tokens) forest.chart) :
    forest.unparsedFrom = none ∧ forest.parsed.getD 0 = (meaningful tokens).size ∨
      forest.unparsedFrom = some (forest.parsed.getD 0) := by
  have hle := h.le hf
  cases h with
  | complete _ _ hp hu => exact .inl ⟨hu, by rw [hp, Option.getD_some]⟩
  | partly _ _ hu =>
    split at hu
    next he =>
      rw [beq_iff_eq] at he
      exact .inl ⟨hu, by omega⟩
    · exact .inr hu

theorem parsed_eq_of_generates (hg : g.Tabulated)
    (hgn : g.Generates g.start ((tokens.filter fun token => !token.trivia).map (·.kind))) :
    (parse g tokens cfg).parsed = some (meaningful tokens).size := by
  rw [← toList_meaningfulKinds] at hgn
  obtain ⟨-, hs, ha⟩ := (faithful_parse hg tokens cfg).accepts_of_generates hg hgn
  rw [size_meaningfulKinds] at ha
  cases parse_outcome g tokens cfg with
  | complete _ _ hp => exact hp
  | partly hn => exact absurd ⟨hs, ha⟩ hn

/-- The symbols recognized over nothing derive nothing. -/
theorem derives_nil_of_origin_eq {chart : Chart} {kinds : Array String} {gaps : List Chart.Gap}
    (h : Sane g kinds chart.column gaps) (hg : g.Tabulated) {spot : Spot}
    (hs : Founded g chart.column spot) : ∀ pos item, spot = .item pos item →
      item.origin = pos → ∃ symbols, Spells g symbols spot ∧
        Grammar.Derives g.alternatives.toList symbols [] := by
  induction hs with
  | phrase => exact fun _ _ hs => by cases hs
  | start hi hdt =>
    intro _ _ _ _
    obtain ⟨alt, ha, -⟩ := (h.sound _).fits _ hi
    exact ⟨[], ⟨alt, ha, by rw [hdt, take_zero]⟩, .nil⟩
  | @link pos item link hl hsp ih =>
    rintro _ _ ⟨rfl, rfl⟩ ho
    obtain ⟨heq, hp⟩ := linkSpots_of_origin_eq h hl ho
    obtain ⟨symbols, hspe, hd⟩ := ih (.item pos item.retreat)
      (by rw [heq]; exact mem_singleton_self _) pos item.retreat rfl ho
    cases h.reached hl with
    | token | phrase => cases heq
    | skip hi _ _ hlt =>
      have := ((h.sound _).fits _ hi).choose_spec.2.2
      omega
    | empty hi hn hnl =>
      refine ⟨_, hspe.advance hn, ?_⟩
      exact hd.append (hg.isNullable_iff.1 hnl)

/-- Where nothing is accepted as a whole input, the start symbol is nullable. -/
private theorem isNullable_start {chart : Chart} {kinds : Array String} (h : Chart.Faithful g kinds chart)
    (hg : g.Tabulated) (ha : chart.accepts g 0) : g.isNullable g.start := by
  obtain ⟨alt, hof, hh⟩ := any_eq_true.1 ha
  obtain ⟨hm, hl⟩ := Grammar.mem_alternativesOf_iff.1 hof
  have hi := (h.sane.sound 0).coherent.has_iff.1 hh
  obtain ⟨symbols, ⟨same, hs, rfl⟩, hd⟩ :=
    derives_nil_of_origin_eq h.sane hg (h.sane.founded hi) 0 _ rfl rfl
  rw [hg.getElem?_id hm] at hs
  cases hs
  rw [take_length] at hd
  exact hg.isNullable_iff.2 (Grammar.generates_iff.2 ⟨alt, hm, hl, hd⟩)

/-! ## The selected derivation -/

/-- A derivation of the start symbol over the first tokens, as it was selected. -/
structure IsRoot (grammar : Grammar) (kinds : Array String) (gaps : List Chart.Gap) (memo : Memo) (stop : Nat)
    (derivation : Derivation) : Prop where
  start_eq : derivation.start = 0
  stop_eq : derivation.stop = stop
  symbol_eq : derivation.symbol? kinds = some (.nonterminal grammar.start)
  valid : derivation.Valid grammar kinds gaps
  expanded : Expanded grammar memo derivation

variable {stop : Nat}

/-- Where tokens were parsed, they have a finite derivation, and what it depends on has been settled. -/
theorem memo_eq_solve (hg : g.Tabulated) (hp : (parse g tokens cfg).parsed = some stop)
    (hpo : 0 < stop) :
    (parse g tokens cfg).memo = solve g (parse g tokens cfg).chart g.start 0 stop ∧
      Founded g (parse g tokens cfg).chart.column (.phrase g.start 0 stop) := by
  have ha := (parse_outcome g tokens cfg).accepts hp
  refine ⟨?_, (faithful_parse hg tokens cfg).founded_of_accepts ha⟩
  rw [(parse_keepsake g tokens cfg).memo_eq, hp]
  cases stop with
  | zero => exact absurd hpo (Nat.lt_irrefl 0)
  | succ last => rfl

/-- Where tokens were parsed, a derivation of the start symbol has been selected for them. -/
theorem exists_root?_eq (hg : g.Tabulated) (hp : (parse g tokens cfg).parsed = some stop) :
    ∃ deriv, (parse g tokens cfg).root? = some deriv ∧
      (parse g tokens cfg).recoveries = deriv.skips ∧
      IsRoot g (meaningfulKinds tokens) (parse g tokens cfg).chart.gaps
        (parse g tokens cfg).memo stop deriv := by
  have hf := faithful_parse hg tokens cfg
  have ha := (parse_outcome g tokens cfg).accepts hp
  have hs := memo_eq_solve hg hp
  have hk := parse_keepsake g tokens cfg
  generalize parse g tokens cfg = forest at *
  cases stop with
  | zero =>
    have hn := isNullable_start hf hg ha
    have hv := fun gaps => Grammar.valid_emptyDerivation hg (meaningfulKinds tokens) gaps hn 0
    obtain ⟨parts, -, hpr⟩ := Grammar.exists_emptyDerivation_eq hg hn 0
    refine ⟨g.emptyDerivation g.start 0, ?_, ?_, ?_, ?_, ?_, hv _, expanded_emptyDerivation hg _ hn 0⟩
    · rw [root?, hp, hk.grammar_eq]
      rfl
    · rw [recoveries, hp, (hv []).skips_eq_zero]
      rfl
    all_goals rw [hpr]; rfl
  | succ last =>
    obtain ⟨hm, hfn⟩ := hs (Nat.succ_pos last)
    obtain ⟨choice, hc, alt, hmm, hl, hsl⟩ :=
      selects_solve hf.sane hg hfn (Nat.succ_pos last)
    rw [← hm] at hc hsl
    refine ⟨.phrase g.start 0 (last + 1) choice.parts.reverse, ?_, ?_, rfl, rfl, rfl, ?_, .phrase hc hsl.expanded⟩
    · simp only [root?, hp, hk.grammar_eq, hc, Option.map_some]
    · simp only [recoveries, hp, hk.grammar_eq, hc, Option.map_some, Option.getD_some]
      exact hsl.skips
    · rw [← hl]
      exact .phrase hmm (Nat.succ_pos last) hsl.fits fun part hpa => hsl.valid part (mem_reverse.1 hpa)

theorem root?_eq_none (hp : forest.parsed = none) : forest.root? = none := by
  rw [root?, hp]

end Forest

end TreeLint
