import Mathlib.Order.Bounds.Basic
import TreeLint.Proofs.Parsing

/-!
# The longest sentence in front

Where no tokens may be skipped, parsing keeps as many leading tokens as form a sentence of the start symbol.

* `Chart.gaps_read`: without a bound for skipping there are no gaps;
* `Chart.Faithful.accepts_of_generates_take`: a sentence in front is read to its end and accepted there;
* `Chart.isGreatest_lastAccepted?`: the last accepted position is the greatest one;
* `Forest.parse_keeps_longest`: what is parsed, what is left and what is reported.
-/

namespace TreeLint

open List

namespace Chart

variable {grammar : Grammar} {kinds : Array String} {bound : Int} {chart : Chart} {length limit stop : Nat}

/-! ## Charts without gaps -/

private theorem resync?_eq_none (hbound : bound ≤ 0) (column : Column) (pos : Nat) :
    resync? kinds column pos bound = none := by
  have hc : min bound.toNat (kinds.size - 1 - pos) = 0 := by omega
  rw [resync?, hc]
  rfl

theorem Reaches.gaps_eq_nil {columns : Array Column} {gaps : List Gap} {pos : Nat} {kernel : Column}
    (h : Reaches grammar kinds bound columns gaps pos kernel) (hbound : bound ≤ 0) : gaps = [] := by
  induction h with
  | seed => rfl
  | scan _ _ ih => exact ih
  | skip _ _ _ hr =>
    rw [resync?_eq_none hbound] at hr
    cases hr

theorem gaps_read (hbound : bound ≤ 0) : (read grammar kinds bound).gaps = [] := by
  obtain ⟨columns, gaps, pos, kernel, hr, -, hgp, -⟩ :=
    readFrom_reaches (Reaches.seed : Reaches grammar kinds bound _ _ _ _)
  exact hgp.trans (hr.gaps_eq_nil hbound)

/-- If the first tokens form a sentence, they are accepted, and the reading does not stop before their end. -/
theorem Faithful.accepts_of_generates_take (h : Faithful grammar kinds chart) (hg : grammar.Tabulated)
    (hle : length ≤ kinds.size) (hgn : grammar.Generates grammar.start (kinds.toList.take length)) :
    chart.accepts grammar length ∧ ∀ stop, chart.stopped = some stop → length ≤ stop := by
  obtain ⟨alt, hm, hlh, hd⟩ := Grammar.generates_iff.1 hgn
  have hof := Grammar.mem_alternativesOf_iff.2 ⟨hm, hlh⟩
  have hi := h.seeded alt hof
  have he := Item.expects_start hg hm 0
  have ha : kinds.toList.take length <+: kinds.toList.drop 0 := take_prefix _ _
  have hl : (kinds.toList.take length).length = length := by simpa using hle
  constructor
  · have hdn := h.advance hg hd hi he ha
    rw [hl, Nat.zero_add] at hdn
    refine any_eq_true.2 ⟨alt, hof, (h.sane.sound length).coherent.has_iff.2 ?_⟩
    simpa using hdn
  · intro stop hs
    obtain ⟨-, hb⟩ := h.stop_blocked hs
    by_contra hlt
    obtain ⟨waiting, hw, hn⟩ := h.awaits hg hd hi he ha (Nat.zero_le stop) (by omega)
    exact hb waiting hw hn

/-! ## The last accepted position -/

private theorem lastAccepted?_self (h : chart.accepts grammar limit) :
    chart.lastAccepted? grammar limit = some limit := by
  cases limit <;> rw [lastAccepted?, if_pos h]

private theorem exists_lastAccepted? {pos : Nat} (hle : pos ≤ limit) (ha : chart.accepts grammar pos) :
    ∃ stop, chart.lastAccepted? grammar limit = some stop ∧ pos ≤ stop := by
  induction limit with
  | zero => exact ⟨0, lastAccepted?_self (Nat.le_zero.1 hle ▸ ha), hle⟩
  | succ limit ih =>
    rw [lastAccepted?]
    split
    · exact ⟨_, rfl, hle⟩
    next hn =>
      have hne : pos ≠ limit + 1 := fun heq => hn (heq ▸ ha)
      exact ih (by omega)

theorem isGreatest_lastAccepted? (h : chart.lastAccepted? grammar limit = some stop) :
    IsGreatest {pos | pos ≤ limit ∧ chart.accepts grammar pos} stop := by
  obtain ⟨ha, hle⟩ := accepts_of_lastAccepted? h
  refine ⟨⟨hle, ha⟩, fun pos hp => ?_⟩
  obtain ⟨same, hs, hle⟩ := exists_lastAccepted? hp.1 hp.2
  cases h.symm.trans hs
  exact hle

end Chart

namespace Grammar

private theorem Derives.forall_kinds {alts : List FlatAlternative} {p : String → Prop}
    (ha : ∀ alt ∈ alts, ∀ kind, .terminal kind ∈ alt.symbols → p kind)
    {symbols : List FlatSymbol} {kinds : List String} (h : Derives alts symbols kinds)
    (hs : ∀ kind, .terminal kind ∈ symbols → p kind) : ∀ kind ∈ kinds, p kind := by
  induction h with
  | nil => exact forall_mem_nil _
  | terminal _ ih =>
    exact forall_mem_cons.2 ⟨hs _ mem_cons_self, ih fun kind hk => hs kind (mem_cons_of_mem _ hk)⟩
  | nonterminal hm _ _ ihsub ihrest =>
    exact forall_mem_append.2 ⟨ihsub (ha _ hm), ihrest fun kind hk => hs kind (mem_cons_of_mem _ hk)⟩

end Grammar

namespace Forest

variable {description : Grammar.Description} {grammar : Grammar} {tokens : List Token} {config : Config} {stop : Nat}

/-- How many leading significant tokens form a sentence of the start symbol. -/
def sentenceLengths (grammar : Grammar) (tokens : List Token) : Set Nat :=
  {length | length ≤ (meaningful tokens).size ∧
    grammar.Generates grammar.start ((meaningfulKinds tokens).toList.take length)}

theorem Outcome.parsed_eq {forest : Forest} (h : Outcome grammar tokens forest) :
    forest.parsed = forest.chart.lastAccepted? grammar (forest.chart.stopped.getD (meaningful tokens).size) := by
  cases h with
  | partly _ hp => exact hp
  | complete hs ha hp =>
    rw [hp, hs, Option.getD_none, Chart.lastAccepted?_self ha]

section

variable (hg : grammar.Tabulated) (hbound : config.recoverySkipBound ≤ 0)

include hbound

private theorem gaps_parse_eq_nil (grammar : Grammar) (tokens : List Token) :
    (parse grammar tokens config).chart.gaps = [] := by
  rw [(parse_keepsake grammar tokens config).chart_eq]
  exact Chart.gaps_read hbound

include hg

/-- Where nothing is skipped, the accepted positions up to the end of the reading are the ends of sentences. -/
private theorem accepts_iff_mem_sentenceLengths {length : Nat} :
    length ≤ (parse grammar tokens config).chart.stopped.getD (meaningful tokens).size ∧
        (parse grammar tokens config).chart.accepts grammar length ↔ length ∈ sentenceLengths grammar tokens := by
  have hf := faithful_parse hg tokens config
  have hs := size_meaningfulKinds tokens
  constructor
  · rintro ⟨hle, ha⟩
    have hgn := hf.generates_of_accepts hg (gaps_parse_eq_nil hbound grammar tokens) ha
    rw [Chart.word, drop_zero, Nat.sub_zero] at hgn
    refine ⟨?_, hgn⟩
    cases hst : (parse grammar tokens config).chart.stopped with
    | none => rwa [hst] at hle
    | some pos =>
      have := (hf.stop_blocked hst).1
      rw [hst, Option.getD_some] at hle
      omega
  · rintro ⟨hle, hgn⟩
    obtain ⟨ha, hsto⟩ := hf.accepts_of_generates_take hg (by omega) hgn
    refine ⟨?_, ha⟩
    cases hst : (parse grammar tokens config).chart.stopped with
    | none => exact hle
    | some pos => exact hsto pos hst

private theorem isGreatest_of_parsed_eq (hp : (parse grammar tokens config).parsed = some stop) :
    IsGreatest (sentenceLengths grammar tokens) stop := by
  rw [(parse_outcome grammar tokens config).parsed_eq] at hp
  obtain ⟨hs, hgr⟩ := Chart.isGreatest_lastAccepted? hp
  exact ⟨(accepts_iff_mem_sentenceLengths hg hbound).1 hs,
    fun length hl => hgr ((accepts_iff_mem_sentenceLengths hg hbound).2 hl)⟩

private theorem parsed_eq_none_iff :
    (parse grammar tokens config).parsed = none ↔ sentenceLengths grammar tokens = ∅ := by
  constructor
  · intro hp
    rw [(parse_outcome grammar tokens config).parsed_eq] at hp
    refine Set.eq_empty_iff_forall_notMem.2 fun length hl => ?_
    obtain ⟨hle, ha⟩ := (accepts_iff_mem_sentenceLengths hg hbound).2 hl
    obtain ⟨stop, hs, -⟩ := Chart.exists_lastAccepted? hle ha
    cases hp.symm.trans hs
  · intro he
    cases hp : (parse grammar tokens config).parsed with
    | none => rfl
    | some stop =>
      have hm := (isGreatest_of_parsed_eq hg hbound hp).1
      rw [he] at hm
      exact hm.elim

private theorem parsed_eq_some_iff :
    (parse grammar tokens config).parsed = some stop ↔ IsGreatest (sentenceLengths grammar tokens) stop := by
  refine ⟨isGreatest_of_parsed_eq hg hbound, fun hgr => ?_⟩
  cases hp : (parse grammar tokens config).parsed with
  | none =>
    have hm := hgr.1
    rw [(parsed_eq_none_iff hg hbound).1 hp] at hm
    exact hm.elim
  | some other => rw [(isGreatest_of_parsed_eq hg hbound hp).unique hgr]

/-- Either all tokens form a sentence, or there is one terminal problem. -/
private theorem problems_parse_cases : (parse grammar tokens config).parsed = some (meaningful tokens).size ∧
        (parse grammar tokens config).unparsedFrom = none ∧ (parse grammar tokens config).problems = [] ∨
      (parse grammar tokens config).parsed ≠ some (meaningful tokens).size ∧
        (parse grammar tokens config).unparsedFrom =
          (if (meaningful tokens).size = 0 then none else some ((parse grammar tokens config).parsed.getD 0)) ∧
        ∃ problem, (parse grammar tokens config).problems = [problem] ∧ problem.terminal := by
  have hgp := gaps_parse_eq_nil hbound grammar tokens
  cases parse_outcome grammar tokens config with
  | complete _ _ hp hu hpr => exact .inl ⟨hp, hu, by rw [hpr, hgp]; rfl⟩
  | partly hn _ hu hpr =>
    refine .inr ⟨fun hp => hn ?_, by simpa using hu, _, by rw [hpr, hgp]; rfl, ?_⟩
    · -- all tokens were accepted, so the reading did not stop before
      have hm := (accepts_iff_mem_sentenceLengths hg hbound).2 (isGreatest_of_parsed_eq hg hbound hp).1
      refine ⟨?_, hm.2⟩
      cases hs : (parse grammar tokens config).chart.stopped with
      | none => rfl
      | some pos =>
        have hlt := ((faithful_parse hg tokens config).stop_blocked hs).1
        have hle := hm.1
        rw [hs, Option.getD_some] at hle
        rw [size_meaningfulKinds] at hlt
        omega
    · exact terminal_terminalProblem ..

end

/-- If nothing may be skipped, as many leading tokens are parsed as form a sentence of the start symbol, and nothing is
parsed if none do. The rest is left, and one terminal problem is reported unless all tokens form a sentence. -/
theorem parse_keeps_longest (hbuild : Grammar.build description = .ok grammar) (tokens : List Token)
    (hbound : config.recoverySkipBound ≤ 0) :
    (∀ stop, (parse grammar tokens config).parsed = some stop ↔ IsGreatest (sentenceLengths grammar tokens) stop) ∧
    ((parse grammar tokens config).parsed = none ↔ sentenceLengths grammar tokens = ∅) ∧
    (∀ stop, (parse grammar tokens config).parsed = some stop →
      ∃ derivation, (parse grammar tokens config).root? = some derivation ∧ derivation.start = 0 ∧
        derivation.stop = stop ∧
        derivation.symbol? (meaningfulKinds tokens) = some (.nonterminal grammar.start)) ∧
    ((parse grammar tokens config).parsed = none → (parse grammar tokens config).root? = none) ∧
    ((parse grammar tokens config).unparsedFrom = none ↔
      (parse grammar tokens config).parsed = some (meaningful tokens).size ∨ (meaningful tokens).size = 0) ∧
    (∀ start, (parse grammar tokens config).unparsedFrom = some start →
      start = (parse grammar tokens config).parsed.getD 0) ∧
    ((∃ problem, (parse grammar tokens config).problems = [problem] ∧ problem.terminal) ↔
      ¬ grammar.Generates grammar.start (meaningfulKinds tokens).toList) ∧
    (grammar.Generates grammar.start (meaningfulKinds tokens).toList →
      (parse grammar tokens config).problems = []) := by
  have hg := (Grammar.built_of_build hbuild).tabulated
  have hw : (parse grammar tokens config).parsed = some (meaningful tokens).size ↔
      grammar.Generates grammar.start (meaningfulKinds tokens).toList := by
    have ht : (meaningfulKinds tokens).toList.take (meaningful tokens).size = (meaningfulKinds tokens).toList := by
      rw [take_of_length_le (by simp [size_meaningfulKinds])]
    rw [parsed_eq_some_iff hg hbound]
    exact ⟨fun hgr => ht ▸ hgr.1.2, fun hgn => ⟨⟨Nat.le_refl _, ht.symm ▸ hgn⟩, fun _ hl => hl.1⟩⟩
  refine ⟨fun stop => parsed_eq_some_iff hg hbound, parsed_eq_none_iff hg hbound, fun stop hp => ?_, root?_eq_none, ?_⟩
  · obtain ⟨derivation, hr, -, hd⟩ := exists_root?_eq hg hp
    exact ⟨derivation, hr, hd.start_eq, hd.stop_eq, hd.symbol_eq⟩
  · rw [← hw]
    rcases @problems_parse_cases _ tokens _ hg hbound with ⟨hp, hu, hn⟩ | ⟨hp, hu, ho⟩
    · simp [hp, hu, hn]
    · simp only [hu, hp, false_or, ho, not_false_eq_true, false_imp_iff, and_true]
      constructor
      · split <;> simp_all
      · intro start hs
        split at hs
        · cases hs
        · exact (Option.some.inj hs).symm

/-- Of a token of the cyclic grammar and an unknown one, the first is kept. -/
theorem parse_keeps_longest_of_loop : ∃ grammar, Grammar.build Grammar.loop = .ok grammar ∧ (parse grammar
      [{ kind := "a", kindId := 0, start := 0, stop := 1, text := [] },
        { kind := "b", kindId := 0, start := 1, stop := 2, text := [] }]
      { recoverySkipBound := 0 }).parsed = some 1 := by
  obtain ⟨grammar, hb⟩ := Grammar.exists_build_loop
  have hbl := Grammar.built_of_build hb
  have hk : ∀ alt ∈ grammar.alternatives.toList, ∀ kind, .terminal kind ∈ alt.symbols →
      kind = "a" := by
    have hs : ∀ alt ∈ grammar.alternatives.toList, ∀ symbol ∈ alt.symbols,
        symbol = .terminal "a" ∨ symbol = .nonterminal "A" := by
      rw [hbl.alternatives_eq]
      decide +kernel
    intro alt hm kind hkn
    rcases hs alt hm _ hkn with heq | heq
    · exact Grammar.FlatSymbol.terminal.inj heq
    · cases heq
  refine ⟨grammar, hb, ((parse_keeps_longest hb _ (Int.le_refl 0)).1 1).2 ⟨⟨by decide, ?_⟩, fun length hl => ?_⟩⟩
  · rw [toList_meaningfulKinds]
    exact hbl.generates_loop.1
  · -- a sentence of both tokens would have the unknown kind
    obtain ⟨hle, hgn⟩ := hl
    by_contra hlt
    obtain rfl : length = 2 := by
      have : length ≤ 2 := hle
      omega
    rw [toList_meaningfulKinds] at hgn
    exact absurd (hgn.forall_kinds hk (by simp) "b" (by decide)) (by decide)

end Forest

end TreeLint
