import TreeLint.Proofs.CrossedGaps
import TreeLint.Proofs.NullableOrder
import TreeLint.Proofs.SettlingOrder

/-!
# The alternatives of the selected derivation

For each nonterminal of the selected derivation, over each range, the alternative declared first is preferred among
those that are at hand when it is chosen.

* Over something, these are the alternatives that were left behind in time, with a derivation in the order in which spots
  are settled. An alternative is late only if it depends on the nonterminal itself.
* Over nothing, these are the alternatives that rest on nonterminals found to be nullable before.

`occurrences_use_earliest` says that the first of them is used, and `earliest_not_throughout` that the first alternative
of all that derive the range is not.
-/

namespace TreeLint

open List Grammar

namespace Derivation

/-! ## Parts of parts -/

def parts : Derivation → List Derivation
  | .token _ => []
  | .phrase _ _ _ parts => parts
  | .empty _ _ parts => parts
  | .skipped _ _ => []

/-- A derivation is a part of another, or a part of such a part, or the other itself. -/
inductive Occurs (part : Derivation) : Derivation → Prop
  | here : Occurs part part
  | inside {inner whole : Derivation} : inner ∈ whole.parts → Occurs part inner → Occurs part whole

variable {grammar : Grammar} {kinds : Array String} {gaps : List Chart.Gap} {part whole : Derivation}

theorem Adjacent.bounds {first last : Nat} {parts : List Derivation} (h : Adjacent first last parts)
    (hp : ∀ part ∈ parts, part.start ≤ part.stop) :
    first ≤ last ∧ ∀ part ∈ parts, first ≤ part.start ∧ part.stop ≤ last := by
  induction h with
  | nil => exact ⟨Nat.le_refl _, forall_mem_nil _⟩
  | cons head _ ih =>
    rw [forall_mem_cons] at hp
    obtain ⟨hle, hr⟩ := ih hp.2
    refine ⟨Nat.le_trans hp.1 hle, ?_⟩
    rw [forall_mem_cons]
    refine ⟨⟨Nat.le_refl _, hle⟩, fun part hpr => ?_⟩
    exact ⟨Nat.le_trans hp.1 (hr part hpr).1, (hr part hpr).2⟩

private theorem Valid.of_mem_parts (h : whole.Valid grammar kinds gaps) (hp : part ∈ whole.parts) :
    part.Valid grammar kinds gaps ∧ whole.start ≤ part.start ∧ part.stop ≤ whole.stop := by
  cases h with
  | token | skipped => cases hp
  | phrase _ _ hf hpr | empty _ hf hpr =>
    have hb := hf.adjacent.bounds fun other ho => (hpr other ho).start_le_stop
    exact ⟨hpr part hp, hb.2 part hp⟩

theorem Occurs.valid (h : part.Occurs whole) (hw : whole.Valid grammar kinds gaps) :
    part.Valid grammar kinds gaps ∧ whole.start ≤ part.start ∧ part.stop ≤ whole.stop := by
  induction h with
  | here => exact ⟨hw, Nat.le_refl _, Nat.le_refl _⟩
  | inside hi _ ih =>
    obtain ⟨hv, hs, hst⟩ := hw.of_mem_parts hi
    obtain ⟨hp, hs', hst'⟩ := ih hv
    exact ⟨hp, Nat.le_trans hs hs', Nat.le_trans hst' hst⟩

/-- Nothing stands over something inside a derivation of nothing. -/
private theorem not_phrase_occurs {name : String} {start stop pos : Nat} {inner : List Derivation}
    (hw : whole.Valid grammar kinds gaps) (hs : whole.start = pos) (hst : whole.stop = pos) :
    ¬ (Derivation.phrase name start stop inner).Occurs whole := by
  intro h
  obtain ⟨hv, hle, hle'⟩ := h.valid hw
  rw [hs] at hle
  rw [hst] at hle'
  cases hv with
  | phrase _ hlt =>
    simp only [Derivation.start, Derivation.stop] at hle hle'
    omega

end Derivation

namespace Forest

open Chart (Begun Item Link Column Sane Founded Faithful word)
open TreeLint.Derivation (Occurs Fits)

variable {grammar : Grammar} {chart : Chart} {kinds : Array String} {memo : Memo} {tokens : List Token}
  {config : Config} {root part : Derivation} {spot : Spot} {name : String} {start stop pos : Nat}
  {parts : List Derivation}

private theorem Expanded.of_occurs (h : part.Occurs root) (hr : Expanded grammar memo root) :
    Expanded grammar memo part := by
  induction h with
  | here => exact hr
  | inside hi _ ih =>
    refine ih ?_
    cases hr with
    | token | skipped => cases hi
    | phrase _ hp => exact hp _ (mem_reverse.1 hi)
    | empty _ hp => exact hp _ hi

/-! ## Where alternatives begin -/

theorem Linked.mem_items {item : Item} (h : Linked grammar kinds chart (.item pos item) parts)
    (hs : Sane grammar kinds chart.column chart.gaps) : item ∈ (chart.column pos).items := by
  cases h with
  | start hi => exact hi
  | token hl | phrase hl | empty hl | skip hl => exact (hs.sound pos).coherent.mem_of_mem_linksOf hl

/-- Where a phrase begins inside a derivation through links, all alternatives of its nonterminal do. -/
private theorem Linked.begun (hl : Linked grammar kinds chart spot parts) (h : Faithful grammar kinds chart)
    {inner : List Derivation} (hp : part ∈ parts) (ho : (Derivation.phrase name start stop inner).Occurs part) :
    Begun grammar chart.column name start := by
  induction hl generalizing part with
  | start => cases hp
  | token _ _ ih | skip _ _ ih =>
    rcases mem_cons.1 hp with rfl | hp
    · cases ho with
      | inside hi => cases hi
    · exact ih hp ho
  | phrase hln _ _ ih ihphrase =>
    rcases mem_cons.1 hp with rfl | hp
    · cases ho with
      | here =>
        intro alt hof
        obtain ⟨hm, hlh⟩ := mem_alternativesOf_iff.1 hof
        cases h.sane.reached hln with
        | phrase hit _ _ _ hn => exact h.predict hit hm (hlh ▸ hn)
      | inside hi ho => exact ihphrase (mem_reverse.1 hi) ho
    · exact ih hp ho
  | empty _ _ hv ih =>
    rcases mem_cons.1 hp with rfl | hp
    · exact absurd ho (Derivation.not_phrase_occurs hv rfl rfl)
    · exact ih hp ho
  | whole _ _ _ ih => exact ih hp ho

/-- An alternative that begins where a range does and derives its tokens is recognized over it. -/
private theorem complete_mem_of_begun (hb : Begun grammar chart.column name start) (h : Faithful grammar kinds chart)
    (hg : grammar.Tabulated) {alt : FlatAlternative} (hm : alt ∈ grammar.alternativesOf name)
    (hd : Derives grammar.alternatives.toList alt.symbols (word kinds start stop))
    (hle : start ≤ stop) (hs : stop ≤ kinds.size) : alt.complete start ∈ (chart.column stop).items := by
  have ha := (mem_alternativesOf_iff.1 hm).1
  have hah : word kinds start stop <+: kinds.toList.drop start := take_prefix _ _
  have hl : start + (word kinds start stop).length = stop := by
    rw [word, length_take, length_drop, Array.length_toList]
    omega
  have hdn := h.advance hg hd (hb alt hm) (Item.expects_start hg ha start) hah
  simpa [hl] using hdn

/-! ## The selected derivation -/

/-- What is known of a phrase that occurs in the selected derivation, with the order in which spots were settled. -/
structure Occurrence (grammar : Grammar) (kinds : Array String) (forest : Forest) (order : List Spot) (name : String)
    (start stop : Nat) (parts : List Derivation) : Prop where
  lt : start < stop
  le : stop ≤ kinds.size
  begun : Begun grammar forest.chart.column name start
  choice : ∃ choice, choice? forest.memo (.phrase name start stop) = some choice ∧ parts = choice.parts.reverse
  records : Records grammar forest.chart [] order forest.memo
  principled : Principled grammar forest.chart forest.memo
  settled : ∀ spot : Spot, forest.memo[spot]? ≠ some .unsettled
  correct : Correct grammar kinds forest.chart.gaps forest.memo
  linked : ∀ other choice, choice? forest.memo other = some choice → Linked grammar kinds forest.chart other choice.parts

private theorem parsed_of_root? {forest : Forest} (hr : forest.root? = some root) : ∃ stop, forest.parsed = some stop :=
  Option.ne_none_iff_exists'.1 fun hn => by simp [root?, hn] at hr

private theorem occurrence_of_occurs (hg : grammar.Tabulated) (hr : (parse grammar tokens config).root? = some root)
    {last : Nat} (hp : (parse grammar tokens config).parsed = some last) {order : List Spot}
    (hrc : Records grammar (parse grammar tokens config).chart [] order
      (solve grammar (parse grammar tokens config).chart grammar.start 0 last))
    (ho : (Derivation.phrase name start stop parts).Occurs root) :
    Occurrence grammar (meaningfulKinds tokens) (parse grammar tokens config) order name start stop parts := by
  have hf := faithful_parse hg tokens config
  obtain ⟨same, hs, -, hisRoot⟩ := exists_root?_eq hg hp
  rw [hr, Option.some.injEq] at hs
  subst hs
  obtain ⟨hv, -, hle⟩ := ho.valid hisRoot.valid
  have hlt : start < stop := by
    cases hv with
    | phrase _ hlt => exact hlt
  rw [hisRoot.stop_eq, Derivation.stop] at hle
  have hsz := (parse_outcome grammar tokens config).le hf
  rw [hp, Option.getD_some, ← size_meaningfulKinds] at hsz
  have hpo : 0 < last := by omega
  obtain ⟨hm, hfn⟩ := memo_eq_solve hg hp hpo
  have hl := linked_solve hf.sane hg hfn hpo
  obtain ⟨hpr, hst⟩ := principled_solve hf.sane hg hfn hpo
  rw [← hm] at hl hpr hst hrc
  have he := hisRoot.expanded
  refine {
    lt := hlt, le := Nat.le_trans hle hsz, begun := ?_, choice := ?_, records := hrc, principled := hpr, settled := hst,
    correct := hm ▸ correct_solve hf.sane hg hfn hpo, linked := hl }
  · cases ho with
    | here =>
      have hn := hisRoot.symbol_eq
      have hst := hisRoot.start_eq
      simp only [Derivation.symbol?, Derivation.start, Option.some.injEq, FlatSymbol.nonterminal.injEq] at hn hst
      subst hn hst
      exact hf.seeded
    | inside hi ho =>
      cases he with
      | token | skipped => cases hi
      | phrase hc => exact (hl _ _ hc).begun hf (mem_reverse.1 hi) ho
      | empty => exact absurd (Occurs.inside hi ho) (Derivation.not_phrase_occurs hisRoot.valid rfl rfl)
  · cases Expanded.of_occurs ho he with
    | phrase hc => exact ⟨_, hc, rfl⟩

/-- The parts of a phrase are by the first of its alternatives that were ready, and from each earlier one that is
recognized over the range a cycle is reached. -/
private theorem Occurrence.exists_alternative {forest : Forest} {order : List Spot} {first : Spot}
    (h : Occurrence grammar kinds forest order name start stop parts) (hg : grammar.Tabulated) (hr : grammar.Ranked)
    (hs : Sane grammar kinds forest.chart.column forest.chart.gaps)
    (hw : Walk grammar forest.chart [] [first] [] order) :
    ∃ alt ∈ grammar.alternativesOf name, Fits kinds start stop alt.symbols parts ∧
      Linked grammar kinds forest.chart (.item stop (alt.complete start)) parts.reverse ∧
      Ready grammar forest.chart order (.phrase name start stop) (.item stop (alt.complete start)) ∧
      ∀ earlier ∈ grammar.alternativesOf name, earlier.rank < alt.rank →
        earlier.complete start ∈ (forest.chart.column stop).items →
          ¬ Ready grammar forest.chart order (.phrase name start stop) (.item stop (earlier.complete start)) ∧
          ¬ Acyclic grammar forest.chart (.item stop (earlier.complete start)) := by
  obtain ⟨choice, hc, rfl⟩ := h.choice
  have hm := ((h.records.isSome_iff _).1 (Option.isSome_of_eq_some hc)).1
  obtain ⟨before, item, rest, hi, hit, hrd, hb⟩ := h.records.first _ _ _ _ hc
  obtain ⟨alt, hma, rfl, -, he⟩ := exists_alternative_of_completeItems hs hr hi
  obtain ⟨symbols, ⟨same, hsa, rfl⟩, hsl⟩ := h.correct _ _ hit
  rw [hg.getElem?_id (mem_alternativesOf_iff.1 hma).1] at hsa
  cases hsa
  refine ⟨alt, hma, ?_, ?_, hrd, fun earlier hof hrn hcm => ?_⟩
  · have hf := hsl.fits
    rwa [take_length] at hf
  · rw [reverse_reverse]
    exact h.linked _ _ hit
  · have hp := he earlier hof hrn hcm
    have hl : Leads grammar forest.chart (.phrase name start stop) (.item stop (earlier.complete start)) :=
      mem_map_of_mem (hi ▸ mem_append_left _ hp)
    exact ⟨hb _ hp, h.records.not_acyclic_of_not_ready hw h.principled h.settled hm hl (hb _ hp)⟩

/-- The alternative used over nothing, and the table when it was found. -/
private theorem exists_alternative_of_emptyChildren? {desc : Description}
    (hb : Built desc grammar) (kinds : Array String)
    (hp : grammar.emptyChildren? name pos = some parts) :
    ∃ alt ∈ grammar.alternativesOf name, Fits kinds pos pos alt.symbols parts ∧
      ∃ before after, grammar.nullTable = before ++ (name, alt.id) :: after ∧
        before.covers alt.symbols ∧
        ∀ earlier ∈ grammar.alternativesOf name, earlier.rank < alt.rank → ¬ before.covers earlier.symbols := by
  have hg := hb.tabulated
  obtain ⟨id, hl, rfl⟩ := Option.map_eq_some_iff.1 hp
  obtain ⟨alt, hm, rfl, before, after, ht, hc, he⟩ := hb.exists_noted hl
  refine ⟨alt, hm, ?_, before, after, ht, hc, he⟩
  rw [Array.getD_eq_getD_getElem?, hg.getElem?_id (mem_alternativesOf_iff.1 hm).1, Option.getD_some]
  refine fits_emptyDerivations fun symbol hs => ?_
  have ha : grammar.nullTable.covers alt.symbols := ht ▸ NullTable.covers_append _ hc
  obtain ⟨nonterminal, rfl, hn⟩ := NullTable.exists_of_covers ha hs
  obtain ⟨inner, -, hi⟩ := exists_emptyDerivation_eq hg hn pos
  exact ⟨nonterminal, inner, rfl, hi⟩

/-- Spots are settled in the order of a walk from the root, and over something a nonterminal of the selected derivation
uses the first of its alternatives that are ready in this order; from each earlier one that derives the range a cycle is
reached. Over nothing, it uses the first alternative that rests on nonterminals found to be nullable before. -/
theorem occurrences_use_earliest {description : Description} (hbuild : Grammar.build description = .ok grammar)
    (hroot : (parse grammar tokens config).root? = some root) :
    (∃ last order, (parse grammar tokens config).parsed = some last ∧
      Walk grammar (parse grammar tokens config).chart [] [.phrase grammar.start 0 last] [] order ∧
      ∀ name start stop parts, (Derivation.phrase name start stop parts).Occurs root →
        (parse grammar tokens config).children name start stop = .ok parts ∧
        ∃ alternative ∈ grammar.alternativesOf name,
          Fits (meaningfulKinds tokens) start stop alternative.symbols parts ∧
          Linked grammar (meaningfulKinds tokens) (parse grammar tokens config).chart
            (.item stop (alternative.complete start)) parts.reverse ∧
          Ready grammar (parse grammar tokens config).chart order (.phrase name start stop)
            (.item stop (alternative.complete start)) ∧
          ∀ earlier ∈ grammar.alternativesOf name, earlier.rank < alternative.rank →
            ¬ Ready grammar (parse grammar tokens config).chart order (.phrase name start stop)
              (.item stop (earlier.complete start)) ∧
            (((∃ others, Linked grammar (meaningfulKinds tokens) (parse grammar tokens config).chart
                (.item stop (earlier.complete start)) others) ∨
              Derives grammar.alternatives.toList earlier.symbols (word (meaningfulKinds tokens) start stop)) →
            ¬ Acyclic grammar (parse grammar tokens config).chart (.item stop (earlier.complete start)))) ∧
    ∀ name position parts, (Derivation.empty name position parts).Occurs root →
      (parse grammar tokens config).emptyChildren name position = .ok parts ∧
      ∃ alternative ∈ grammar.alternativesOf name,
        Fits (meaningfulKinds tokens) position position alternative.symbols parts ∧
        ∃ before after, grammar.nullTable = before ++ (name, alternative.id) :: after ∧
          before.covers alternative.symbols ∧
          ∀ earlier ∈ grammar.alternativesOf name, earlier.rank < alternative.rank →
            ¬ before.covers earlier.symbols := by
  have hb := built_of_build hbuild
  have hg := hb.tabulated
  have hf := faithful_parse hg tokens config
  obtain ⟨last, hp⟩ := parsed_of_root? hroot
  constructor
  · obtain ⟨order, hw, hrc⟩ := exists_walk_solve hf.sane grammar.start 0 last
    refine ⟨last, order, hp, hw, fun name start stop parts ho => ?_⟩
    have hoc := occurrence_of_occurs hg hroot hp hrc ho
    obtain ⟨alternative, hm, hft, hl, hr, he⟩ := hoc.exists_alternative hg hb.ranked hf.sane hw
    obtain ⟨choice, hc, rfl⟩ := hoc.choice
    refine ⟨children_eq_ok hoc.lt hc, alternative, hm, hft, hl, hr, fun earlier hof hrn => ⟨fun hre => ?_, ?_⟩⟩
    · exact (he earlier hof hrn (hre.mem_items hf.sane hg hw nofun)).1 hre
    · rintro (⟨others, hot⟩ | hd)
      · exact (he earlier hof hrn (hot.mem_items hf.sane)).2
      · exact (he earlier hof hrn (complete_mem_of_begun hoc.begun hf hg hof hd (Nat.le_of_lt hoc.lt) hoc.le)).2
  · intro name position parts ho
    obtain ⟨same, hs, -, hisRoot⟩ := exists_root?_eq hg hp
    rw [hroot, Option.some.injEq] at hs
    subst hs
    cases Expanded.of_occurs ho hisRoot.expanded with
    | empty hpr =>
      have hk := (parse_keepsake grammar tokens config).grammar_eq
      exact ⟨emptyChildren_eq_ok (hk.symm ▸ hpr), exists_alternative_of_emptyChildren? hb _ hpr⟩

/-- A token of the kind `a`. -/
def letter : Token :=
  { kind := "a", kindId := 0, start := 0, stop := 1, text := [] }

private theorem meaningfulKinds_letter : meaningfulKinds [letter] = #["a"] := by
  simp [meaningfulKinds, meaningful, letter]

/-- One token of the cyclic grammar, where an alternative before the one in use leads to a cycle. -/
theorem loop_uses_earliest : ∃ grammar parts order, Grammar.build Grammar.loop = .ok grammar ∧
    (parse grammar [letter] {}).root? = some (.phrase "A" 0 1 parts) ∧
    Walk grammar (parse grammar [letter] {}).chart [] [.phrase "A" 0 1] [] order ∧
    (parse grammar [letter] {}).children "A" 0 1 = .ok parts ∧
    ∃ alternative ∈ grammar.alternativesOf "A", Fits (meaningfulKinds [letter]) 0 1 alternative.symbols parts ∧
      Ready grammar (parse grammar [letter] {}).chart order (.phrase "A" 0 1) (.item 1 (alternative.complete 0)) ∧
      ∀ earlier ∈ grammar.alternativesOf "A", earlier.rank < alternative.rank →
        ¬ Ready grammar (parse grammar [letter] {}).chart order (.phrase "A" 0 1) (.item 1 (earlier.complete 0)) ∧
        (Derives grammar.alternatives.toList earlier.symbols ["a"] →
          ¬ Acyclic grammar (parse grammar [letter] {}).chart (.item 1 (earlier.complete 0))) := by
  obtain ⟨grammar, hb⟩ := exists_build_loop
  have hbl := built_of_build hb
  have hp : (parse grammar [letter] {}).parsed = some 1 :=
    parsed_eq_of_generates hbl.tabulated hbl.generates_loop.1
  obtain ⟨root, hr, -, hisRoot⟩ := exists_root?_eq hbl.tabulated hp
  have hs : grammar.start = "A" := hbl.start_eq
  obtain ⟨parts, rfl⟩ : ∃ parts, root = .phrase "A" 0 1 parts := by
    have hf := hisRoot.start_eq
    have hl := hisRoot.stop_eq
    have hsy := hisRoot.symbol_eq
    rw [hs] at hsy
    cases root with
    | token | skipped => cases hsy
    | phrase name start stop parts =>
      cases hsy
      cases hf
      cases hl
      exact ⟨parts, rfl⟩
    | empty name pos parts =>
      cases hf
      cases hl
  obtain ⟨last, order, hlt, hw, hoc⟩ := (occurrences_use_earliest hb hr).1
  rw [hp, Option.some.injEq] at hlt
  subst hlt
  rw [hs] at hw
  obtain ⟨hc, alternative, hm, hft, -, hrd, he⟩ := hoc "A" 0 1 parts .here
  refine ⟨grammar, parts, order, hb, hr, hw, hc, alternative, hm, hft, hrd, fun earlier hof hrn => ?_⟩
  obtain ⟨hn, ha⟩ := he earlier hof hrn
  rw [meaningfulKinds_letter] at ha
  exact ⟨hn, fun hd => ha (.inr hd)⟩

/-! ## The first alternative is not always used -/

/-- Every nonterminal in a derivation uses the first of its alternatives that derive its tokens. -/
def EarliestThroughout (grammar : Grammar) (kinds : Array String) (root : Derivation) : Prop :=
  ∀ part : Derivation, part.Occurs root → ∀ name, part.symbol? kinds = some (.nonterminal name) →
    ∃ alternative ∈ grammar.alternativesOf name, Fits kinds part.start part.stop alternative.symbols part.parts ∧
      ∀ earlier ∈ grammar.alternativesOf name, earlier.rank < alternative.rank →
        ¬ Derives grammar.alternatives.toList earlier.symbols (word kinds part.start part.stop)

/-- A nonterminal that stands for another one that stands for nothing, or for nothing by itself. -/
def vanishing : Description where
  name := "vanishing"
  productions := [
    { name := "S", alternatives := [{ symbols := [.ref "A"] }] },
    { name := "A", alternatives := [{ symbols := [.ref "B"] }, { symbols := [] }] },
    { name := "B", alternatives := [{ symbols := [] }] }]
  suppression := { directive := "x" }

/-- The second nonterminal is found before the third, so it does not stand for it. -/
private theorem not_earliest_vanishing (hb : Built vanishing grammar) (kinds : Array String) :
    ¬ EarliestThroughout grammar kinds (grammar.emptyDerivation "S" 0) := by
  have hw : ∃ alt ∈ grammar.alternatives.toList, alt.lhs = "S" ∧
      alt.symbols = [.nonterminal "A"] ∧ grammar.nullTable.lookup "S" = some alt.id := by
    rw [hb.nullTable_eq, hb.alternatives_eq]
    decide +kernel
  have hi : ∃ alt ∈ grammar.alternatives.toList, alt.lhs = "A" ∧
      alt.symbols = [] ∧ grammar.nullTable.lookup "A" = some alt.id := by
    rw [hb.nullTable_eq, hb.alternatives_eq]
    decide +kernel
  have hf : ∃ alt ∈ grammar.alternatives.toList, alt.lhs = "A" ∧ alt.rank = 0 ∧
      alt.symbols = [.nonterminal "B"] := by
    rw [hb.alternatives_eq]
    decide +kernel
  have hl : ∃ alt ∈ grammar.alternatives.toList, alt.lhs = "B" ∧ alt.symbols = [] := by
    rw [hb.alternatives_eq]
    decide +kernel
  have hr : ∀ alt ∈ grammar.alternatives.toList, alt.lhs = "A" → alt.symbols = [] →
      0 < alt.rank := by
    rw [hb.alternatives_eq]
    decide +kernel
  obtain ⟨outer, ho, hot, hou, hout⟩ := hw
  obtain ⟨inner, hi, hinn, hinne, hinner⟩ := hi
  have hrt := (emptyDerivation_eq hb.tabulated ho (hot ▸ hout) 0).1
  have hp := (emptyDerivation_eq hb.tabulated hi (hinn ▸ hinner) 0).1
  rw [hot, hou] at hrt
  rw [hinn, hinne] at hp
  simp only [map_cons, map_nil, FlatSymbol.name, hp] at hrt hp
  intro he
  rw [hrt] at he
  obtain ⟨alt, hof, hft, hn⟩ :=
    he (.empty "A" 0 []) (.inside mem_cons_self .here) "A" rfl
  obtain ⟨hm, hlh⟩ := mem_alternativesOf_iff.1 hof
  obtain ⟨first, hf, hfr, hrn, hfi⟩ := hf
  obtain ⟨last, hl, hls, hla⟩ := hl
  refine hn first (mem_alternativesOf_iff.2 ⟨hf, hfr⟩) ?_ ?_
  · rw [hrn]
    exact hr alt hm hlh hft.spells.symm
  · rw [hfi, Derivation.start, Derivation.stop, Chart.word_self]
    exact derives_singleton_iff.2 ⟨last, hl, hls, hla ▸ .nil⟩

/-- If one token stood for the nonterminal of the cyclic grammar by its first alternative throughout, its derivation
would not end. -/
private theorem not_earliest_loop (hb : Built Grammar.loop grammar) (hv : root.Valid grammar #["a"] [])
    (hs : root.start = 0) (hst : root.stop = 1) (hsy : root.symbol? #["a"] = some (.nonterminal "A")) :
    ¬ EarliestThroughout grammar #["a"] root := by
  have hf : ∃ alt ∈ grammar.alternatives.toList, alt.lhs = "A" ∧ alt.rank = 0 ∧
      alt.symbols = [.nonterminal "A"] := by
    rw [hb.alternatives_eq]
    decide +kernel
  have hr : ∀ alt ∈ grammar.alternatives.toList, alt.rank = 0 →
      alt.symbols = [.nonterminal "A"] := by
    rw [hb.alternatives_eq]
    decide +kernel
  obtain ⟨first, hf, hfr, hfi, hfir⟩ := hf
  have hd : Derives grammar.alternatives.toList first.symbols (word #["a"] 0 1) := by
    have hg := hb.generates_loop.1
    rw [hb.start_eq] at hg
    exact hfir ▸ hg
  intro he
  induction root using Derivation.induction with
  | token | skipped => cases hsy
  | empty name pos parts =>
    cases hs
    cases hst
  | phrase name start stop parts ih =>
    cases hs
    cases hst
    cases hsy
    obtain ⟨alt, hof, hft, hn⟩ := he _ .here "A" rfl
    have hrn : ¬ first.rank < alt.rank := fun hlt =>
      hn first (mem_alternativesOf_iff.2 ⟨hf, hfr⟩) hlt hd
    have hsym := hr alt (mem_alternativesOf_iff.1 hof).1 (by omega)
    rw [hsym] at hft
    have hp : ∀ part ∈ parts, part.Valid grammar #["a"] [] := fun part hpr => (hv.of_mem_parts hpr).1
    obtain ⟨part, rest, rfl, hpa, hprt, hr⟩ := hft.exists_cons hp
    obtain ⟨rfl, hpar⟩ := hr.eq_nil fun other ho => hp other (mem_cons_of_mem _ ho)
    refine ih part mem_cons_self (hp part mem_cons_self) hpa hpar hprt ?_
    exact fun other ho => he other (.inside mem_cons_self ho)

/-- The first alternative is not used throughout: not over nothing, and not where it would lead back to itself. -/
theorem earliest_not_throughout :
    (∃ grammar root, Grammar.build vanishing = .ok grammar ∧ (parse grammar [] {}).root? = some root ∧
      ¬ EarliestThroughout grammar (meaningfulKinds []) root) ∧
    ∃ grammar root, Grammar.build Grammar.loop = .ok grammar ∧ (parse grammar [letter] {}).root? = some root ∧
      ¬ EarliestThroughout grammar (meaningfulKinds [letter]) root := by
  constructor
  · have hok : (Grammar.build vanishing).isOk = true := by decide +kernel
    obtain ⟨grammar, hb⟩ := exists_eq_ok hok
    have hbl := built_of_build hb
    have hs : grammar.start = "S" := hbl.start_eq
    have hn : grammar.isNullable grammar.start := by
      rw [hs, isNullable, hbl.nullTable_eq, hbl.alternatives_eq]
      decide +kernel
    have hp : (parse grammar [] {}).parsed = some 0 :=
      parsed_eq_of_generates hbl.tabulated (hbl.tabulated.isNullable_iff.1 hn)
    refine ⟨grammar, grammar.emptyDerivation "S" 0, hb, ?_, not_earliest_vanishing hbl _⟩
    simp only [root?, hp, (parse_keepsake grammar [] {}).grammar_eq, hs]
  · obtain ⟨grammar, hb⟩ := exists_build_loop
    have hbl := built_of_build hb
    have hg := hbl.tabulated
    have hp : (parse grammar [letter] {}).parsed = some 1 := parsed_eq_of_generates hg hbl.generates_loop.1
    obtain ⟨root, hr, -, hisRoot⟩ := exists_root?_eq hg hp
    have hf := faithful_parse hg [letter] {}
    rw [meaningfulKinds_letter] at hf hisRoot ⊢
    obtain ⟨hgp, -, -⟩ := hf.accepts_of_generates hg hbl.generates_loop.1
    have hs : grammar.start = "A" := hbl.start_eq
    refine ⟨grammar, root, hb, hr, ?_⟩
    exact not_earliest_loop hbl (hgp ▸ hisRoot.valid) hisRoot.start_eq hisRoot.stop_eq (hs ▸ hisRoot.symbol_eq)

end Forest

end TreeLint
