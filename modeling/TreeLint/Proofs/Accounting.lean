import TreeLint.Proofs.FaultyNodes
import TreeLint.Proofs.Lowering

/-!
# Problems and faulty nodes

The problems of a source and the faulty places of its tree account for each other (`Tree.Accounted`): the problems of
skipped tokens are those of the `error` nodes, a terminal problem is that of the `unparsed` node, and the lexical problems
are those of the `unknown` leaves, one for one, in order and over the same ranges.

* `Forest.range_skipProblems`, `Forest.Reported.range_ending`: the ranges of problems are those of faults;
* `range_lexicalProblems`, `Tree.Grown.range_unknown`: the ranges of lexical problems are those of `unknown` leaves;
* `Tree.unknown_not_mem_sentence`: no sentence has an `unknown` token, so such a leaf is below a faulty node.
-/

namespace TreeLint

open List Grammar Forest

open Chart (gapsBetween)

namespace Tree

def Marks (tree : Tree) (problem : Problem) (id : Nat) : Prop :=
  problem.span.start = (tree.node id).start ∧ problem.span.stop = (tree.node id).stop

/-- The problems of a tree and its faulty places account for each other. -/
structure Accounted (forest : Forest) (tree : Tree) : Prop where
  skips : List.Forall₂ tree.Marks (tree.problems.filter Problem.isSkip) (tree.find errorKind)
  recoveries : (tree.problems.filter Problem.isSkip).length = forest.recoveries
  terminal : (tree.problems.filter (·.terminal)).length ≤ 1
  /-- Without significant tokens, there is no node for a terminal problem. -/
  unparsed : List.Forall₂ tree.Marks
    (tree.problems.filter fun problem => problem.terminal && tree.tokens.any fun token => !token.trivia)
    (tree.find unparsedKind)
  lexical : List.Forall₂ tree.Marks (tree.problems.filter Problem.isLexical)
    ((tree.leaves 0).filter fun leaf => (tree.node leaf).kind == unknownKind)
  unknown : ∀ leaf ∈ tree.leaves 0, (tree.node leaf).kind = unknownKind → ∃ above ∈ tree.ancestors leaf,
      (tree.node above).kind = errorKind ∨ (tree.node above).kind = unparsedKind

end Tree

def signedRange (range : Nat × Nat) : Int × Int :=
  (range.1, range.2)

private theorem Tree.forall₂_marks {tree : Tree} {problems : List Problem} {ids : List Nat}
    (h : problems.map Problem.range = (ids.map tree.range).map signedRange) : List.Forall₂ tree.Marks problems ids := by
  rw [map_map, ← forall₂_eq_eq_eq, forall₂_map_left_iff, forall₂_map_right_iff] at h
  exact h.imp fun _ _ heq => Prod.mk.inj heq

/-! ## Ranges of problems -/

namespace Forest

variable {grammar : Grammar} {tokens : List Token} {cfg : Config} {ending : List Problem}

theorem range_skipProblems (hg : grammar.Tabulated) (h : Token.InOrder tokens) (cfg : Config) :
    (skipProblems grammar tokens (parse grammar tokens cfg)).map Problem.range =
      (((parse grammar tokens cfg).faults errorKind).map (rangeBetween (meaningful tokens))).map
        signedRange := by
  rw [skipProblems, ← faults_errorKind hg, map_map, map_map]
  refine map_congr_left fun gap hgp => ?_
  obtain ⟨hlt, hs⟩ := faults_proper hg hgp
  exact range_gapProblem (h.filter _) hlt hs

theorem Reported.range_ending (hr : Reported grammar tokens (parse grammar tokens cfg) ending)
    (h : Token.InOrder tokens) :
    (ending.filter fun _ => tokens.any fun token => !token.trivia).map Problem.range =
      (((parse grammar tokens cfg).faults unparsedKind).map (rangeBetween (meaningful tokens))).map
        signedRange := by
  have ha : (tokens.any fun token => !token.trivia) = !((meaningful tokens).size == 0) := by
    rw [meaningful, size_toArray, Bool.eq_iff_iff, any_eq_true, Bool.not_eq_true', beq_eq_false_iff_ne,
      Ne, length_eq_zero_iff, filter_eq_nil_iff]
    simp
  rw [faults_unparsedKind, ha]
  cases hr with
  | complete _ hu =>
    rw [hu]
    rfl
  | partly _ hu hl =>
    rw [hu]
    cases he : (meaningful tokens).size == 0 with
    | true => rfl
    | false =>
      have hlt := hl (Nat.pos_of_ne_zero (beq_eq_false_iff_ne.1 he))
      rw [size_significant]
      exact congrArg (· :: []) (range_terminalProblem (h.filter _) hlt)

end Forest

theorem range_lexicalProblems {tokens : List Token} (h : ∀ token ∈ tokens, token.start < token.stop) :
    (lexicalProblems tokens).map Problem.range = (tokens.filter fun token => token.kind == unknownKind).map fun token =>
        signedRange (token.start, token.stop) := by
  induction tokens with
  | nil => rfl
  | cons token tokens ih =>
    rw [forall_mem_cons] at h
    replace ih := ih h.2
    rw [lexicalProblems] at ih ⊢
    rw [filterMap_cons, filter_cons, Token.problem?]
    cases token.kind == unknownKind with
    | true =>
      refine congrArg₂ List.cons ?_ ih
      simp only [Problem.range, Span.between, signedRange, Prod.mk.injEq, true_and]
      omega
    | false => exact ih

/-! ## Leaves that no rule matches -/

theorem Grammar.Built.subset_tokenNames {description : Description} {grammar : Grammar}
    (h : Built description grammar) {kinds : List String}
    (hg : grammar.Generates grammar.start kinds) : kinds ⊆ description.tokenNames := by
  have hs : grammar.start ∈ description.names := h.start_eq ▸ h.start_mem
  have hr := (h.lowering.derives_iff_reads (.cons (.production hs (h.not_mem_tokenNames hs)) .nil)).1 hg
  exact hr.subset_tokenNames (nil_subset _)

namespace Tree

variable {description : Description} {grammar : Grammar} {src : Source} {tree : Tree} {cut : Nat → Nat}
  {layout : Layout}

private theorem map_getD_range' {α : Type} (entries : Array α) (otherwise : α) :
    (List.range' 0 entries.size).map (fun place => entries.getD place otherwise) = entries.toList := by
  refine ext_getElem (by simp) fun place hp _ => ?_
  simp at hp
  simp [hp]

theorem Grown.range_unknown (h : Grown tree cut layout) :
    ((tree.leaves 0).filter fun leaf => (tree.node leaf).kind == unknownKind).map tree.range =
      (tree.tokens.toList.filter fun token => token.kind == unknownKind).map fun token =>
        (token.start, token.stop) := by
  have hl : Layout.Laid (fun place => tree.source.byteAt (cut place)) tree.tokens := laid_of_cuts h.cuts
  rw [h.map_filter_leaves (q := fun place => (tree.tokens.getD place default).kind == unknownKind)
      (g := fun place => ((tree.tokens.getD place default).start, (tree.tokens.getD place default).stop)),
    ← map_getD_range' tree.tokens default, filter_map, map_map]
  · rfl
  · intro id place ht
    rw [(h.leaf_kind ht).1]
  · intro id place ht
    obtain ⟨hp, -, hr, -⟩ := h.leaf_eq ht
    rw [hr, (hl hp).1, (hl hp).2]

theorem unknown_not_mem_sentence (hb : Built description grammar) (hs : src.Coherent)
    (path : String) (cfg : Config) :
    unknownKind ∉ (parse grammar src path cfg).sentence := by
  cases hp : (Forest.parse grammar (tokenize grammar src) cfg).parsed with
  | none =>
    rw [sentence_eq hb.tabulated hs, Draft.regularOfAll_ofForest, root?_eq_none hp]
    exact not_mem_nil
  | some stop =>
    intro hm
    obtain ⟨deriv, hr, hsn⟩ := sentence_parse hb hs path hp
    obtain ⟨same, hsa, -, -, -, -, hg⟩ := exists_expands hb.tabulated hp
    rw [hr] at hsa
    cases hsa
    rw [hsn] at hm
    have hn := hb.subset_tokenNames hg hm
    exact absurd ((hb.tokenNames_checks hn).2 (by decide)) (by decide)

private theorem exists_faulty_above (hb : Built description grammar) (hs : src.Coherent) (path : String)
    (cfg : Config) {leaf : Nat} (hl : leaf ∈ (parse grammar src path cfg).leaves 0)
    (hk : ((parse grammar src path cfg).node leaf).kind = unknownKind) :
    ∃ above ∈ (parse grammar src path cfg).ancestors leaf,
      ((parse grammar src path cfg).node above).kind = errorKind ∨
        ((parse grammar src path cfg).node above).kind = unparsedKind := by
  obtain ⟨cut, hg⟩ := grown_parse hb.tabulated hs path cfg
  have ht : (parse grammar src path cfg).tokens = (tokenize grammar src).toArray :=
    (parse_keepsake grammar (tokenize grammar src) cfg).tokens_eq
  obtain ⟨place, htk⟩ := Option.isSome_iff_exists.1 (mem_filter.1 hl).2
  obtain ⟨hlf, hlea⟩ := hg.leaf_kind htk
  have hp := (hg.leaf_eq htk).1
  rw [ht] at hlf hlea hp
  have htr : ((tokenize grammar src).toArray.getD place default).trivia = false := by
    rw [hk] at hlf
    rcases kind_of_mem_reservedKinds hb (getD_mem hp) (by rw [← hlf]; decide) with hbl | ⟨-, htr⟩
    · rw [hbl] at hlf
      exact absurd hlf (by decide)
    · exact htr
  -- otherwise the leaf would be part of the sentence
  by_contra hn
  have hr : (parse grammar src path cfg).isRegular leaf = true := by
    refine all_eq_true.2 fun above ha => ?_
    have hnt := fun hf => hn ⟨above, ha, hf⟩
    simpa [isFaulty] using hnt
  refine unknown_not_mem_sentence hb hs path cfg ?_
  rw [← hk, sentence]
  refine mem_map_of_mem (mem_filter.2 ⟨hl, ?_⟩)
  rw [hlea, htr, hr]
  rfl

/-! ## Problems and nodes -/

private theorem accounted_parse (hb : Built description grammar) (hs : src.Coherent) (path : String) (cfg : Config) :
    Accounted (Forest.parse grammar (tokenize grammar src) cfg) (parse grammar src path cfg) := by
  have hg := hb.tabulated
  have ho := inOrder_tokenize hs grammar
  have hk := parse_keepsake grammar (tokenize grammar src) cfg
  have ht : (parse grammar src path cfg).tokens = (tokenize grammar src).toArray := hk.tokens_eq
  obtain ⟨ending, hr⟩ := parse_reported hg (tokenize grammar src) cfg
  obtain ⟨hsk, htr, hl⟩ := filter_problems_parse hg hs path hr
  obtain ⟨cut, hgr⟩ := grown_parse hg hs path cfg
  constructor
  case skips =>
    refine forall₂_marks ?_
    rw [hsk, Forest.range_skipProblems hg ho, map_range_find hb hs path cfg (by decide)]
  case recoveries => rw [hsk, Forest.skipProblems, length_map, recoveries_eq hg]
  case terminal =>
    rw [htr]
    exact hr.length_le
  case unparsed =>
    refine forall₂_marks ?_
    rw [← filter_filter, filter_comm, htr, ht, any_toArray, map_range_find hb hs path cfg (by decide)]
    exact hr.range_ending ho
  case lexical =>
    refine forall₂_marks ?_
    rw [hl, range_lexicalProblems ho.proper, hgr.range_unknown, ht, map_map]
    rfl
  case unknown => exact fun leaf hlf hkn => exists_faulty_above hb hs path cfg hlf hkn

/-- The problems of a source and the faulty places of its tree account for each other. In the forest, all derivations of
a spot cross the same gaps, so the number of recoveries does not depend on which one was selected. -/
theorem problems_account_for_faults (hbuild : Grammar.build description = .ok grammar) {source : Source}
    (hsource : (∃ bytes, source = .ofBytes bytes) ∨ ∃ text, source = .ofText (Text.ofString text)) (path : String)
    (config : Config) :
    Accounted (Forest.parse grammar (tokenize grammar source) config) (parse grammar source path config) ∧
    ∀ tokens, (∀ spot parts others,
        Forest.Linked grammar (meaningfulKinds tokens) (Forest.parse grammar tokens config).chart spot parts →
        Forest.Linked grammar (meaningfulKinds tokens) (Forest.parse grammar tokens config).chart spot others →
          Derivation.gapsOfAll parts.reverse = Derivation.gapsOfAll others.reverse) ∧
      ∀ stop, (Forest.parse grammar tokens config).parsed = some stop → (0 < stop → ∃ parts,
          (Forest.parse grammar tokens config).root? = some (.phrase grammar.start 0 stop parts.reverse) ∧
          Forest.Linked grammar (meaningfulKinds tokens) (Forest.parse grammar tokens config).chart
            (.phrase grammar.start 0 stop) parts) ∧
        ∀ parts, Forest.Linked grammar (meaningfulKinds tokens) (Forest.parse grammar tokens config).chart
            (.phrase grammar.start 0 stop) parts →
          Derivation.skipsOfAll parts.reverse = (Forest.parse grammar tokens config).recoveries := by
  have hb := built_of_build hbuild
  have hc := Source.coherent_of_read hsource
  refine ⟨accounted_parse hb hc path config, fun tokens => ?_⟩
  have hf := faithful_parse hb.tabulated tokens config
  have ho := ordered_gaps grammar tokens config
  refine ⟨fun spot parts others hp hot => ?_, fun stop hpr => ⟨?_, fun parts hp => ?_⟩⟩
  · rw [hp.gaps_eq hf ho, hot.gaps_eq hf ho]
  · exact exists_linked_root hb.tabulated hpr
  · rw [← Derivation.length_gapsOfAll, hp.gaps_eq hf ho, recoveries_eq hb.tabulated, hpr]
    rfl

/-- A source of the cyclic grammar with a token it does not know. -/
theorem faults_accounted_of_loop : ∃ grammar, Grammar.build Grammar.loop = .ok grammar ∧
    Accounted (Forest.parse grammar (tokenize grammar (.ofText (Text.ofString "a?"))) {})
      (parse grammar (.ofText (Text.ofString "a?")) defaultPath {}) := by
  obtain ⟨grammar, hb⟩ := exists_build_loop
  exact ⟨grammar, hb, (problems_account_for_faults hb (.inr ⟨"a?", rfl⟩) _ _).1⟩

end Tree

end TreeLint
