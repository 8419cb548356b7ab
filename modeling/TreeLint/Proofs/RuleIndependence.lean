import TreeLint.Lint
import TreeLint.Proofs.DiagnosticOrder
import TreeLint.Proofs.GuardBreakdown

/-!
# Rules by themselves

What a rule gives on a tree does not depend on the rules that are run with it, as long as they have names of their own
and none of them breaks down.

* `Lint.evaluateRule_cases`: the rules reported before matter only for the report of a defect;
* `Lint.stamped`: every diagnostic of a rule carries its name and the path of the tree;
* `Lint.evaluateAll_run`: rules with different names give what they give by themselves, one after the other;
* `Lint.evaluate_separates`: in the sorted list the rules can be told apart and put in any order.
-/

namespace TreeLint

open List Match

namespace Lint

variable {tree : Tree} {cfg : Config} {suppressions : Suppressions} {rule : Rule} {rules others : List Rule}
  {reported : List String} {diag : Diagnostic} {diagnostics : List Diagnostic}

/-! ## One rule -/

/-- A rule is passed over, has its defect reported unless that was done before, or is run. -/
theorem evaluateRule_cases (tree : Tree) (cfg : Config) (suppressions : Suppressions) (rule : Rule) :
    (∀ reported, ((evaluateRule tree cfg suppressions rule).run).run reported = (.ok [], reported)) ∨
    (∃ defect, ∀ reported, ((evaluateRule tree cfg suppressions rule).run).run reported =
      if reported.contains rule.id then (.ok [], reported)
      else (.ok [defectDiagnostic rule defect tree.path], reported ++ [rule.id])) ∨
    ∀ reported, ((evaluateRule tree cfg suppressions rule).run).run reported =
      (runRule rule (cfg.severityFor rule.id rule.severity) tree cfg suppressions, reported) := by
  unfold evaluateRule
  by_cases hs : (!cfg.isEnabled rule.id || rule.pattern.grammarName != tree.grammar.name) = true
  · rw [if_pos hs]
    exact .inl fun _ => rfl
  rw [if_neg hs]
  cases rule.defect with
  | some defect =>
    have ha (report : Linting (List Diagnostic)) (reported : List String) :
        ((do if (← get).contains rule.id then return [] else report : Linting (List Diagnostic)).run).run reported =
          if reported.contains rule.id then (.ok [], reported) else (report.run).run reported := by
      change ((if reported.contains rule.id then pure [] else report : Linting (List Diagnostic)).run).run reported = _
      split <;> rfl
    exact .inr (.inl ⟨defect, ha _⟩)
  | none =>
    dsimp only
    split
    · cases runRule rule (cfg.severityFor rule.id rule.severity) tree cfg suppressions with
      | ok | error => exact .inr (.inr fun _ => rfl)
    · exact .inl fun _ => rfl

def outcomeOf (tree : Tree) (config : Config) (suppressions : Suppressions) (rule : Rule) :
    Except Breakdown (List Diagnostic) :=
  (((evaluateRule tree config suppressions rule).run).run []).1

/-- A rule that has not been reported gives what it gives by itself, and at most it is reported then. -/
private theorem evaluateRule_run (hn : rule.id ∉ reported) :
    ∃ after, ((evaluateRule tree cfg suppressions rule).run).run reported =
      (outcomeOf tree cfg suppressions rule, after) ∧ after ⊆ reported ++ [rule.id] := by
  unfold outcomeOf
  rcases evaluateRule_cases tree cfg suppressions rule with h | ⟨defect, h⟩ | h
  · rw [h, h]
    exact ⟨reported, rfl, subset_append_left _ _⟩
  · rw [h, h, if_neg (by simpa using hn)]
    exact ⟨reported ++ [rule.id], rfl, fun _ hm => hm⟩
  · rw [h, h]
    exact ⟨reported, rfl, subset_append_left _ _⟩

/-- Whatever the findings and the warnings of a rule have in common, all its diagnostics have. -/
private theorem goThrough_forall {P : Diagnostic → Prop} {judge : Match → Except Breakdown Verdict}
    {warn : Predicate.Mishap → Diagnostic} {limit : Option Int} {last : Except Breakdown (List Predicate.Mishap)}
    (hj : ∀ found diag, judge found = .ok (.reported diag) → P diag)
    (hw : ∀ mishap, P (warn mishap)) {count : Nat} {warned : Bool} {found : List (Match × List Predicate.Mishap)}
    {outcome : Outcome} (h : goThrough judge warn limit last count warned found = .ok outcome) :
    ∀ diag ∈ outcome.diagnostics, P diag := by
  induction found generalizing count warned outcome with
  | nil =>
    cases last with
    | error => cases h
    | ok mishaps =>
      obtain rfl := Except.ok.inj h
      nofun
  | cons first rest ih =>
    obtain ⟨verdict, hv, h⟩ := bind_eq_ok_iff.mp h
    cases verdict with
    | dropped => exact ih h
    | failed mishap =>
      obtain ⟨later, hl, h⟩ := bind_eq_ok_iff.mp h
      obtain rfl := Except.ok.inj h
      split
      · exact ih hl
      · exact forall_mem_cons.mpr ⟨hw mishap, ih hl⟩
    | reported diag =>
      have hf := hj first.1 diag hv
      dsimp only at h
      split at h
      · obtain rfl := Except.ok.inj h
        exact forall_mem_singleton.mpr hf
      · obtain ⟨later, hl, h⟩ := bind_eq_ok_iff.mp h
        obtain rfl := Except.ok.inj h
        exact forall_mem_cons.mpr ⟨hf, ih hl⟩

private theorem eq_finding_of_judge {severity : String} {found : Match}
    (h : judge rule severity tree suppressions found = .ok (.reported diag)) :
    diag = finding rule severity tree found := by
  unfold judge at h
  dsimp only at h
  split at h
  · cases h
  · cases h
  · cases h
  · split at h
    · cases h
    · cases h
      rfl

private theorem file_finding (rule : Rule) (severity : String) (tree : Tree) (found : Match) :
    (finding rule severity tree found).span.file = tree.path := by
  have hc (name : String) (span : Span) (h : captureSpan? tree found name = some span) :
      span.file = tree.path := by
    unfold captureSpan? at h
    split at h
    · cases h
    · cases h
    · cases h
      rfl
  change ((rule.primary.bind (captureSpan? tree found)).getD (spanOf tree found.nodes)).file = tree.path
  cases hs : rule.primary.bind (captureSpan? tree found) with
  | none => rfl
  | some span =>
    obtain ⟨name, -, hn⟩ := Option.bind_eq_some_iff.mp hs
    exact hc name span hn

private theorem stamped_runRule {severity : String}
    (h : runRule rule severity tree cfg suppressions = .ok diagnostics) :
    ∀ diag ∈ diagnostics, diag.rule = rule.id ∧ diag.span.file = tree.path := by
  obtain ⟨outcome, ho, h⟩ := bind_eq_ok_iff.mp h
  have ha : ∀ diag ∈ outcome.diagnostics, diag.rule = rule.id ∧ diag.span.file = tree.path := by
    refine goThrough_forall (fun found diag hj => ?_) (fun mishap => ⟨rfl, rfl⟩) ho
    rw [eq_finding_of_judge hj]
    exact ⟨rfl, file_finding rule severity tree found⟩
  split at h
  · cases h
    exact ha
  · cases h
    refine forall_mem_append.mpr ⟨ha, fun diag hd => ?_⟩
    obtain ⟨mishap, -, rfl⟩ := Option.map_eq_some_iff.mp (Option.mem_toList.mp hd)
    exact ⟨rfl, rfl⟩

theorem stamped (h : (((evaluateRule tree cfg suppressions rule).run).run reported).1 = .ok diagnostics) :
    ∀ diag ∈ diagnostics, diag.rule = rule.id ∧ diag.span.file = tree.path := by
  rcases evaluateRule_cases tree cfg suppressions rule with hr | ⟨defect, hr⟩ | hr
  · rw [hr] at h
    cases h
    nofun
  · rw [hr] at h
    split at h
    · cases h
      nofun
    · cases h
      exact forall_mem_singleton.mpr ⟨rfl, rfl⟩
  · rw [hr] at h
    exact stamped_runRule h

/-! ## Several rules -/

/-- What several outcomes give together: one list after the other, or the first breakdown. -/
def gather : List (Except Breakdown (List Diagnostic)) → Except Breakdown (List Diagnostic)
  | [] => .ok []
  | first :: others => do
    let diagnostics ← first
    let more ← gather others
    return diagnostics ++ more

private theorem gather_map_eq_ok_iff {f : Rule → Except Breakdown (List Diagnostic)} :
    gather (rules.map f) = .ok diagnostics ↔ (∀ rule ∈ rules, ∃ found, f rule = .ok found) ∧
      diagnostics = rules.flatMap fun rule => (f rule).toOption.getD [] := by
  induction rules generalizing diagnostics with
  | nil => simp [gather, eq_comm]
  | cons rule rules ih =>
    rw [map_cons, gather, forall_mem_cons, flatMap_cons, bind_eq_ok_iff]
    constructor
    · rintro ⟨found, hf, h⟩
      obtain ⟨more, hm, h⟩ := bind_eq_ok_iff.mp h
      obtain ⟨ha, rfl⟩ := ih.mp hm
      obtain rfl := Except.ok.inj h
      exact ⟨⟨⟨found, hf⟩, ha⟩, by rw [hf]; rfl⟩
    · rintro ⟨⟨⟨found, hf⟩, ha⟩, rfl⟩
      refine ⟨found, hf, bind_eq_ok_iff.mpr ⟨_, ih.mpr ⟨ha, rfl⟩, ?_⟩⟩
      rw [hf]
      rfl

/-- A computation goes on with the reports of the one before it, unless that one breaks down. -/
theorem run_bind_ok {α β : Type} {first : Linting α} {next : α → Linting β} {value : α} {after : List String}
    (h : (first.run).run reported = (.ok value, after)) :
    ((first >>= next).run).run reported = ((next value).run).run after := by
  simp only [ExceptT.run_bind, StateT.run_bind]
  rw [h]
  rfl

theorem run_bind_error {α β : Type} {first : Linting α} {next : α → Linting β} {breakdown : Breakdown}
    {after : List String} (h : (first.run).run reported = (.error breakdown, after)) :
    ((first >>= next).run).run reported = (.error breakdown, after) := by
  simp only [ExceptT.run_bind, StateT.run_bind]
  rw [h]
  rfl

/-- Rules with different names give what they give by themselves, one after the other. -/
theorem evaluateAll_run (hi : (rules.map (·.id)).Nodup) (hn : ∀ rule ∈ rules, rule.id ∉ reported) :
    (((evaluateAll tree cfg suppressions rules).run).run reported).1 =
      gather (rules.map (outcomeOf tree cfg suppressions)) := by
  induction rules generalizing reported with
  | nil => rfl
  | cons rule rules ih =>
    rw [map_cons, nodup_cons] at hi
    obtain ⟨after, hr, hs⟩ := @evaluateRule_run tree cfg suppressions rule _ (hn rule mem_cons_self)
    -- reporting this rule does not count for the others, whose names are different
    have ha : ∀ other ∈ rules, other.id ∉ after := by
      intro other ho hmm
      rcases mem_append.mp (hs hmm) with hmm | hmm
      · exact hn other (mem_cons_of_mem _ ho) hmm
      · exact hi.1 (mem_singleton.mp hmm ▸ mem_map_of_mem ho)
    rw [map_cons, gather, evaluateAll]
    cases hot : outcomeOf tree cfg suppressions rule with
    | error breakdown =>
      rw [hot] at hr
      rw [run_bind_error hr]
      rfl
    | ok found =>
      rw [hot] at hr
      rw [run_bind_ok hr, ← ih hi.2 ha]
      rcases hm : ((evaluateAll tree cfg suppressions rules).run).run after with ⟨_ | more, last⟩
      · rw [run_bind_error hm]
        rfl
      · rw [run_bind_ok hm]
        rfl

/-- What rules give on a tree where no defect has been reported yet. -/
def fresh (rules : List Rule) (tree : Tree) (config : Config) : Except Breakdown (List Diagnostic) :=
  (((evaluate rules tree config).run).run []).1

private theorem fresh_eq (hi : (rules.map (·.id)).Nodup) (tree : Tree) (cfg : Config) : fresh rules tree cfg =
      (gather (rules.map (outcomeOf tree cfg (.ofTree tree)))).map Diagnostic.sort := by
  rw [← @evaluateAll_run _ _ _ _ [] hi fun _ _ => not_mem_nil, fresh, evaluate]
  rcases h : ((evaluateAll tree cfg (.ofTree tree) rules).run).run [] with ⟨_ | found, after⟩
  · rw [run_bind_error h]
    rfl
  · rw [run_bind_ok h]
    rfl

private theorem fresh_singleton (rule : Rule) (tree : Tree) (cfg : Config) :
    fresh [rule] tree cfg = (outcomeOf tree cfg (.ofTree tree) rule).map Diagnostic.sort := by
  rw [fresh_eq (by simp) tree cfg, map_singleton]
  cases outcomeOf tree cfg (.ofTree tree) rule with
  | error => rfl
  | ok found => simp [gather, bind, Except.bind, pure, Except.pure, Except.map]

/-! ## Rules together and apart -/

def piece (tree : Tree) (config : Config) (rule : Rule) : List Diagnostic :=
  (outcomeOf tree config (.ofTree tree) rule).toOption.getD []

private theorem rule_of_mem_piece (h : diag ∈ piece tree cfg rule) : diag.rule = rule.id := by
  unfold piece at h
  cases ho : outcomeOf tree cfg (.ofTree tree) rule with
  | error => rw [ho] at h; cases h
  | ok found =>
    rw [ho] at h
    exact (stamped ho diag h).1

private theorem fresh_singleton_eq_ok_iff : (∃ found, fresh [rule] tree cfg = .ok found) ↔
      ∃ found, outcomeOf tree cfg (.ofTree tree) rule = .ok found := by
  rw [fresh_singleton]
  cases outcomeOf tree cfg (.ofTree tree) rule <;> simp [Except.map]

private theorem fresh_eq_ok_iff (hi : (rules.map (·.id)).Nodup) :
    fresh rules tree cfg = .ok diagnostics ↔ (∀ rule ∈ rules, ∃ found, fresh [rule] tree cfg = .ok found) ∧
      diagnostics = Diagnostic.sort (rules.flatMap (piece tree cfg)) := by
  rw [fresh_eq hi]
  simp only [fresh_singleton_eq_ok_iff]
  constructor
  · intro h
    cases hg : gather (rules.map (outcomeOf tree cfg (.ofTree tree))) with
    | error => rw [hg] at h; cases h
    | ok found =>
      obtain ⟨ha, rfl⟩ := gather_map_eq_ok_iff.mp hg
      rw [hg] at h
      exact ⟨ha, (Except.ok.inj h).symm⟩
  · rintro ⟨ha, rfl⟩
    rw [gather_map_eq_ok_iff.mpr ⟨ha, rfl⟩]
    rfl

/-- Rules with different names do not interfere: they give a list if and only if each of them gives one by itself. The
list is then the same in any order of the rules, the diagnostics with the name of a rule are those that it gives by
itself, and all are sorted by file, start and rule. -/
theorem evaluate_separates (hids : (rules.map (·.id)).Nodup) (tree : Tree) (config : Config) :
    ((∃ found, fresh rules tree config = .ok found) ↔ ∀ rule ∈ rules, ∃ found, fresh [rule] tree config = .ok found) ∧
    ∀ found, fresh rules tree config = .ok found →
      (∀ others, others.Perm rules → fresh others tree config = .ok found) ∧
      (∀ rule ∈ rules, fresh [rule] tree config = .ok (found.filter (·.rule == rule.id))) ∧
      (∀ diagnostic ∈ found, ∃ rule ∈ rules, diagnostic.rule = rule.id) ∧
      found.Pairwise fun first second => first.precedes second := by
  have ho : ∀ rule ∈ rules, ∀ diagnostic ∈ piece tree config rule, diagnostic.key.2.2 = rule.id :=
    fun rule _ diagnostic hm => rule_of_mem_piece hm
  refine ⟨⟨?_, fun hall => ⟨_, (fresh_eq_ok_iff hids).mpr ⟨hall, rfl⟩⟩⟩, ?_⟩
  · rintro ⟨found, h⟩
    exact ((fresh_eq_ok_iff hids).mp h).1
  intro found h
  obtain ⟨hall, rfl⟩ := (fresh_eq_ok_iff hids).mp h
  refine ⟨fun others hp => ?_, fun rule hr => ?_, fun diagnostic hm => ?_, Diagnostic.pairwise_sort _⟩
  · have hi' : (others.map (·.id)).Nodup := (hp.map _).nodup_iff.mpr hids
    refine (fresh_eq_ok_iff hi').mpr ⟨fun rule hr => hall rule (hp.subset hr), ?_⟩
    exact Diagnostic.sort_congr fun key => (Diagnostic.filter_key_flatMap_perm (·.2.2) ho hids hp key).symm
  · obtain ⟨alone, ha⟩ := hall rule hr
    have hon : ([rule].map (·.id)).Nodup := nodup_singleton rule.id
    have how : (rules.flatMap (piece tree config)).filter (·.rule == rule.id) = piece tree config rule :=
      Diagnostic.filter_owner_flatMap (·.2.2) ho hids hr
    rw [ha, ((fresh_eq_ok_iff hon).mp ha).2, Diagnostic.filter_sort, how, flatMap_singleton]
  · obtain ⟨rule, hr, hm⟩ := mem_flatMap.mp (Diagnostic.mem_sort.mp hm)
    exact ⟨rule, hr, rule_of_mem_piece hm⟩

/-! ## A rule that cannot be run, and one that breaks down -/

private theorem outcomeOf_of_defect {defect : Rule.Defect} (he : cfg.isEnabled rule.id = true)
    (hg : rule.pattern.grammarName = tree.grammar.name) (hd : rule.defect = some defect) :
    outcomeOf tree cfg suppressions rule = .ok [defectDiagnostic rule defect tree.path] := by
  unfold outcomeOf evaluateRule
  rw [he, hg, hd, bne_self_eq_false]
  rfl

private theorem outcomeOf_of_run (he : cfg.isEnabled rule.id = true)
    (hg : rule.pattern.grammarName = tree.grammar.name) (hd : rule.defect = none)
    (hp : cfg.passes (cfg.severityFor rule.id rule.severity) = true) :
    outcomeOf tree cfg suppressions rule =
      runRule rule (cfg.severityFor rule.id rule.severity) tree cfg suppressions := by
  unfold outcomeOf evaluateRule
  rw [he, hg, hd, bne_self_eq_false]
  dsimp only
  rw [hp]
  cases runRule rule (cfg.severityFor rule.id rule.severity) tree cfg suppressions <;> rfl

/-- A rule with the pattern of a text under a guard that asks for two alphabets. -/
def clashRule (grammar : Grammar) (id message : String) (defect : Option Rule.Defect) : Rule where
  id := id
  pattern := clashing grammar
  message := message
  severity := "warning"
  predicate := none
  primary := none
  secondary := []
  description := ""
  tags := []
  defect := defect

theorem compile_clashRule (g : Grammar) {id message : String} {defect : Option Rule.Defect}
    (hid : id.isEmpty = false) (hd : Rule.messageDefect? [] message = defect) :
    Rule.compile (some g) { id, message } (.text "\"zzz\" where \"a\" =~ \"(?a)(?u)a\"") =
      .ok (clashRule g id message defect) := by
  have hp := Pattern.compileGiven_text readShape_clash (checkTop_clash g)
  have hc : (clashing g).captures = [] := by
    simp [Pattern.captures, clashing, Pattern.Instr.mayBind, Predicate.nameSet]
  have hn : Rule.Draft.defect? { id, message } (clashing g) = none := by
    simp [Rule.Draft.defect?, Rule.Draft.pointsAt, severities, hid]
  have hr : Rule.ofPattern { id, message } (clashing g) =
      .ok (clashRule g id message (Rule.messageDefect? (clashing g).captures message)) := by
    rw [Rule.ofPattern, hn]
    simp only [Rule.Draft.readCondition, bind, Except.bind, pure, Except.pure, clashRule]
  rw [hc, hd] at hr
  have hg : Rule.grammarFor (some g) { id, message } = .ok g := by
    rw [Rule.grammarFor, hid]
    rfl
  rw [Rule.compile, hg]
  simp only [bind, Except.bind, hp]
  exact hr

/-- The search for that pattern breaks down on every tree with a node to start from. -/
theorem trace_clashing {g : Grammar} {first : Nat} {others : List Nat}
    (hc : Match.candidates (clashing g) tree = first :: others) :
    ∃ record, Match.trace (clashing g) tree = { found := [], breakdown := some .alphabets, record } := by
  obtain ⟨after, ha⟩ : Throws {}
      (atNode tree (clashing g).root first) .alphabets :=
    (throws_matchNode (evaluate_found read_clash _ _ _ _) references_clash _ first).bind
  refine ⟨after, ?_⟩
  rw [Match.trace, Match.attempts]
  change Match.collect {} [] ((Match.candidates (clashing g) tree).map _) = _
  rw [hc, map_cons, Match.collect, ha]

private theorem outcomeOf_clashRule {g : Grammar} {id message : String} {first : Nat} {others : List Nat}
    (hg : g.name = tree.grammar.name)
    (hc : Match.candidates (clashing g) tree = first :: others) :
    outcomeOf tree {} suppressions (clashRule g id message none) = .error .alphabets := by
  obtain ⟨record, ht⟩ := trace_clashing hc
  have hr (severity : String) : runRule (clashRule g id message none) severity tree {} suppressions =
      .error .alphabets := by
    unfold runRule
    dsimp only [clashRule]
    rw [ht]
    rfl
  have hp : Config.passes {} "warning" = true := by decide +kernel
  rw [outcomeOf_of_run rfl hg rfl hp, hr]

private theorem name_grammar_parse (g : Grammar) (src : Source) (path : String) (cfg : Config) :
    (Tree.parse g src path cfg).grammar.name = g.name :=
  congrArg Grammar.name (Forest.parse_keepsake g (tokenize g src) cfg).grammar_eq

private theorem messageDefect?_undefined : Rule.messageDefect? [] "\x7bx\x7d" = some (.undefinedReference "x") := by
  decide +kernel

/-- Two rules with broken messages are both reported, whatever their order. -/
theorem evaluate_separates_of_broken : ∃ grammar first second, Grammar.build Grammar.loop = .ok grammar ∧
    Rule.compile (some grammar) { id := "b", message := "\x7bx\x7d" }
      (.text "\"zzz\" where \"a\" =~ \"(?a)(?u)a\"") = .ok first ∧
    Rule.compile (some grammar) { id := "a", message := "\x7bx\x7d" }
      (.text "\"zzz\" where \"a\" =~ \"(?a)(?u)a\"") = .ok second ∧
    ∃ found, fresh [first, second] (Tree.parse grammar (.ofText (Text.ofString ""))) {} = .ok found ∧
      fresh [second, first] (Tree.parse grammar (.ofText (Text.ofString ""))) {} = .ok found ∧
      found.filter (·.rule == "a") = [defectDiagnostic second (.undefinedReference "x") Tree.defaultPath] := by
  obtain ⟨grammar, hb⟩ := Grammar.exists_build_loop
  have hc {id : String} (hid : id.isEmpty = false) :=
    @compile_clashRule grammar id _ _ hid messageDefect?_undefined
  have ha (id : String) : fresh [clashRule grammar id "\x7bx\x7d" (some (.undefinedReference "x"))]
      (Tree.parse grammar (.ofText (Text.ofString ""))) {} =
        .ok [defectDiagnostic (clashRule grammar id "\x7bx\x7d" (some (.undefinedReference "x")))
          (.undefinedReference "x") Tree.defaultPath] := by
    rw [fresh_singleton, outcomeOf_of_defect rfl (name_grammar_parse grammar _ _ _).symm rfl]
    exact congrArg _ (Diagnostic.sort_of_pairwise (pairwise_singleton _ _))
  refine ⟨grammar, _, _, hb, hc rfl, hc rfl, ?_⟩
  have hi : ([clashRule grammar "b" "\x7bx\x7d" (some (.undefinedReference "x")),
      clashRule grammar "a" "\x7bx\x7d" (some (.undefinedReference "x"))].map (·.id)).Nodup := by
    simp [clashRule]
  obtain ⟨hg, hl⟩ := evaluate_separates hi (Tree.parse grammar (.ofText (Text.ofString ""))) {}
  obtain ⟨found, hf⟩ := hg.mpr (by simp [ha])
  obtain ⟨ho, hr, -⟩ := hl found hf
  refine ⟨found, hf, ho _ (List.Perm.swap _ _ _), ?_⟩
  have hs := hr _ (mem_cons_of_mem _ mem_cons_self)
  rw [ha] at hs
  exact (Except.ok.inj hs).symm

/-- A guard that asks for two alphabets ends the run of all rules: what another rule gives by itself is lost. -/
theorem breakdown_ends_others : ∃ grammar bad good, Grammar.build Grammar.loop = .ok grammar ∧
    Rule.compile (some grammar) { id := "bad", message := "m" }
      (.text "\"zzz\" where \"a\" =~ \"(?a)(?u)a\"") = .ok bad ∧
    Rule.compile (some grammar) { id := "good", message := "\x7bx\x7d" }
      (.text "\"zzz\" where \"a\" =~ \"(?a)(?u)a\"") = .ok good ∧
    fresh [good] (Tree.parse grammar (.ofText (Text.ofString ""))) {} =
      .ok [defectDiagnostic good (.undefinedReference "x") Tree.defaultPath] ∧
    fresh [bad, good] (Tree.parse grammar (.ofText (Text.ofString ""))) {} = .error .alphabets := by
  obtain ⟨grammar, hb⟩ := Grammar.exists_build_loop
  have hg := (Grammar.built_of_build hb).tabulated
  have hk : (clashing grammar).anchorKinds = none := rfl
  obtain ⟨others, hc⟩ :=
    exists_candidates hg (Source.coherent_ofText "") Tree.defaultPath {} hk
  refine ⟨grammar, _, _, hb, compile_clashRule grammar rfl (by decide +kernel : _ = none),
    compile_clashRule grammar rfl messageDefect?_undefined, ?_, ?_⟩
  · rw [fresh_singleton, outcomeOf_of_defect rfl (name_grammar_parse grammar _ _ _).symm rfl]
    exact congrArg _ (Diagnostic.sort_of_pairwise (pairwise_singleton _ _))
  · have hi : ([clashRule grammar "bad" "m" none,
        clashRule grammar "good" "\x7bx\x7d" (some (.undefinedReference "x"))].map (·.id)).Nodup := by
      simp [clashRule]
    rw [fresh_eq hi, map_cons, outcomeOf_clashRule (name_grammar_parse grammar _ _ _).symm hc]
    rfl

end Lint

end TreeLint
