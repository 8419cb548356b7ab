import TreeLint.Proofs.WatchedMatch

/-!
# Searches that find every capture bound

* `watched_trace`, `watched_atNode?`: no search and no match at a node raises an alarm;
* `clean_recordAfter`: no calls note a guard that read an unbound name;
* `captures_sound`: both, with the names that the captures of a match bind.
-/

namespace TreeLint

open List Pattern

namespace Match

open Pattern.Instr (ScopedRoot)

variable {root : Instr} {tree : Tree} {pattern : Pattern} {record : Record} {alarm : Breakdown}

/-! ## Attempts -/

/-- Where nothing is bound or awaited, anything may be matched. -/
theorem situated_nil (reads binds : List String) : Situated [] [] [] reads binds [] [] where
  bound := nil_subset _
  possible := nil_subset _
  known _ _ hsr := absurd hsr not_mem_nil
  awaited _ hn := absurd hn not_mem_nil

private theorem agrees_atNode (hf : Formed root) (hs : root.Scoped [] []) {node : Nat} (hn : IsPlace tree node) :
    Agrees root tree (Watched.atNode alarm tree root node) (atNode tree root node) :=
  (unalarmed hf root (List.Subset.refl _) [] [] [] node [] [] hn hs (situated_nil _ _) allOf_nil).map _

theorem scoped_of_isSequence (hs : ScopedRoot pattern.root) (hn : pattern.isSequence = false) :
    pattern.root.Scoped [] [] := by
  refine hs.scoped fun id items guard hr => ?_
  rw [isSequence, hr] at hn
  cases hn

private theorem agrees_atNode? (hf : Formed pattern.root) (hs : ScopedRoot pattern.root) (id : Int) :
    Agrees pattern.root tree (Watched.atNode? alarm pattern tree id) (atNode? pattern tree id) := by
  unfold Watched.atNode? atNode?
  by_cases hsq : pattern.isSequence
  · rw [if_pos hsq, if_pos hsq]
    exact agrees_pure _
  · rw [if_neg hsq, if_neg hsq]
    have hn := scoped_of_isSequence hs (by simpa using hsq)
    cases hr : tree.resolve? id with
    | some node => exact (agrees_atNode hf hn (isPlace_of_resolve? hr)).map _
    | none => exact agrees_pure _

private theorem agrees_ofSiblings {id parent : Nat} {items : List Instr} {guard : Option Predicate}
    {siblings : List Nat}
    (hf : Formed (.siblings id items guard)) (hs : ScopedRoot (.siblings id items guard))
    (hsb : siblings <:+ tree.significantChildren parent) :
    Agrees (.siblings id items guard) tree
      (Watched.ofSiblings alarm tree id items (guardChain id guard) parent siblings)
      (ofSiblings tree id items (guardChain id guard) parent siblings) := by
  have hm := (Instr.siblings id items guard).self_mem_parts
  have hp : ∀ item ∈ items, item.parts ⊆ (Instr.siblings id items guard).parts :=
    fun _ hi => Instr.parts_child_subset hi
  have hst :
      Situated [] [] [] (Instr.readsOfAll items) (Instr.surelyBindOfAll items) [] (guardChain id guard) := by
    refine (situated_nil _ (Instr.surelyBindOfAll items)).part (List.Subset.refl _) fun name hn => .inr ?_
    cases guard with
    | none => cases hn
    | some pred =>
      rw [guardChain, readsOf, readsOf, append_nil] at hn
      exact hs.2 pred rfl name hn
  have hc := allOf_guardChain id items guard
  unfold Watched.ofSiblings ofSiblings
  refine (agrees_matchItems_of hf hm rfl suffix_rfl hp
    (fun item hi => unalarmed hf item (hp item hi)) (hf.separate _ hm _ _ rfl) hsb
    hs.1 hst hc).bind (yields_matchItems hf hsb hc (awaited_guardChain id guard)) ?_
  cases Plain.matchItems tree false items siblings [] (isAccepted tree (guardChain id guard)) with
  | none => exact agrees_pure none
  | some found =>
    obtain ⟨captures, left⟩ := found
    dsimp only
    cases siblings.take (siblings.length - left) with
    | nil | cons => exact agrees_pure _

private theorem agrees_attempts (hf : Formed pattern.root) (hs : ScopedRoot pattern.root) :
    List.Forall₂ (Agrees pattern.root tree) (Watched.attempts alarm pattern tree) (attempts pattern tree) := by
  have hn : pattern.root.Scoped [] [] → List.Forall₂ (Agrees pattern.root tree)
      ((candidates pattern tree).map (Watched.atNode alarm tree pattern.root))
      ((candidates pattern tree).map (atNode tree pattern.root)) := by
    intro hs
    rw [forall₂_map_left_iff, forall₂_map_right_iff, forall₂_same]
    exact fun node hm => agrees_atNode hf hs (.inl (lt_of_mem_candidates hm))
  unfold Watched.attempts attempts
  generalize pattern.root = root at hf hs hn ⊢
  cases root with
  | siblings id items guard =>
    rw [forall₂_map_left_iff, forall₂_map_right_iff, forall₂_same]
    rintro ⟨parent, siblings⟩ hm
    exact agrees_ofSiblings hf hs (suffix_of_mem_siblingRuns hm)
  | _ => exact hn hs

/-! ## Whole searches -/

/-- Attempts that do the same are collected to the same, and no guard is noted that read an unbound name. -/
private theorem collect_eq {first second : List (Matching (Option Match))} {outcomes : List (Option Match)}
    {may : Breakdown → Prop}
    (h : List.Forall₂ (Agrees root tree) first second) (ho : List.Forall₂ (Yields root tree may) second outcomes)
    (hv : record.Valid root tree) (hc : record.Clean) (seen : List Match) :
    collect record seen first = collect record seen second ∧ (collect record seen second).record.Clean := by
  induction h generalizing record seen outcomes with
  | nil => exact ⟨rfl, hc⟩
  | @cons watched attempt first second ha _ ih =>
    obtain ⟨outcome, outcomes, hot, hr, rfl⟩ := forall₂_cons_left_iff.1 ho
    obtain ⟨heq, hk⟩ := ha record hv hc
    have haf := (hot record hv).1
    rw [collect, collect, heq]
    rcases hrn : (attempt.run).run record with ⟨result, after⟩
    rw [hrn] at hk haf
    cases result with
    | error breakdown => exact ⟨rfl, hk⟩
    | ok found =>
      cases found with
      | none => exact ih hr haf hk seen
      | some found =>
        dsimp only
        split
        · exact ih hr haf hk seen
        · obtain ⟨hsa, hl⟩ := ih hr haf hk (found.key :: seen)
          rw [hsa]
          exact ⟨rfl, hl⟩

section

variable (hf : Formed pattern.root) (hs : ScopedRoot pattern.root)

include hf hs

theorem watched_trace (hv : record.Valid pattern.root tree) (hc : record.Clean) :
    Watched.trace alarm pattern tree record = trace pattern tree record :=
  (collect_eq (agrees_attempts hf hs) (yields_attempts hf) hv hc []).1

private theorem Call.clean_leave (call : Call) (hv : record.Valid pattern.root tree) (hc : record.Clean) :
    (call.leave pattern tree record).Clean := by
  cases call with
  | run =>
    have ha : List.Forall₂ (Agrees pattern.root tree) (Watched.attempts .number pattern tree) _ :=
      agrees_attempts hf hs
    exact (collect_eq ha (yields_attempts hf) hv hc []).2
  | atNode id =>
    have hn : Agrees pattern.root tree (Watched.atNode? .number pattern tree id) _ :=
      agrees_atNode? hf hs id
    exact (hn record hv hc).2

theorem clean_recordAfter (calls : List Call) : (recordAfter pattern tree calls).Clean := by
  unfold recordAfter
  suffices h : ∀ record : Record, record.Valid pattern.root tree → record.Clean →
      (calls.foldl (Call.leave pattern tree) record).Clean from h {} Record.valid_empty fun _ => not_mem_nil
  induction calls with
  | nil => exact fun _ _ hc => hc
  | cons call calls ih =>
    intro record hv hc
    exact ih _ (call.valid_leave hf hv) (call.clean_leave hf hs hv hc)

end

/-! ## The names that are bound -/

/-- Captures bind all names that a pattern certainly binds, and no others than it may bind. -/
def Binds (pattern : Pattern) (captures : Bindings) : Prop :=
  (∀ name ∈ pattern.root.surelyBinds, name ∈ captures.names) ∧ ∀ name ∈ captures.names, name ∈ pattern.captures

namespace Plain

variable {found : Match}

private theorem binds_atNode {node : Nat} (h : atNode tree pattern.root node = some found) :
    Binds pattern found.captures := by
  obtain ⟨captures, hc, rfl⟩ := Option.map_eq_some_iff.1 h
  exact ⟨(sound tree _ _ _ _ _ hc).surelyBinds,
    fun name hn => Predicate.mem_nameSet.2 ((sound tree _ _ _ _ _ hc).mayBind name hn)⟩

private theorem binds_atNode? {id : Int} (h : atNode? pattern tree id = .ok (some found)) :
    Binds pattern found.captures := by
  unfold atNode? at h
  split at h
  · cases h
  · split at h
    · exact binds_atNode (Except.ok.inj h)
    · cases h

private theorem binds_ofSiblings {id : Nat} {items : List Instr} {guard : Option Predicate} {check : Bindings → Bool}
    {siblings : List Nat} (hr : pattern.root = .siblings id items guard)
    (h : ofSiblings tree items check siblings = some found) : Binds pattern found.captures := by
  unfold ofSiblings at h
  split at h
  · cases h
  next captures left hc =>
    split at h
    · cases h
    · cases h
      rw [Binds, Pattern.captures, hr]
      exact ⟨(matchItems_sound hc).surelyBinds,
        fun name hn => Predicate.mem_nameSet.2 ((matchItems_sound hc).mayBind name hn)⟩

private theorem binds_of_mem_attempts (h : some found ∈ attempts pattern tree) : Binds pattern found.captures := by
  unfold attempts at h
  split at h
  next id items guard hr =>
    obtain ⟨⟨parent, siblings⟩, -, hfn⟩ := mem_map.1 h
    exact binds_ofSiblings hr hfn
  · obtain ⟨node, -, hfn⟩ := mem_map.1 h
    exact binds_atNode hfn

theorem mem_of_mem_distinct {seen : List Match} {outcomes : List (Option Match)} (h : found ∈ distinct seen outcomes) :
    some found ∈ outcomes := by
  induction outcomes generalizing seen with
  | nil => cases h
  | cons outcome outcomes ih =>
    cases outcome with
    | none => exact mem_cons_of_mem _ (ih h)
    | some other =>
      unfold distinct at h
      split at h
      · exact mem_cons_of_mem _ (ih h)
      · rcases mem_cons.1 h with rfl | h
        · exact mem_cons_self
        · exact mem_cons_of_mem _ (ih h)

end Plain

/-- Every match that a search finds is one that plain matching finds. -/
theorem Trace.Follows.mem {trace : Trace} {expected : List Match} (h : trace.Follows root tree expected) {found : Match}
    (hfn : found ∈ trace.found.map (·.1)) : found ∈ expected := by
  cases hb : trace.breakdown with
  | none => rwa [h.complete hb] at hfn
  | some breakdown => exact (h.broken breakdown hb).2.subset hfn

/-- After any calls, a search and a match at a node do what they do with alarms for unbound names, for instructions
that cannot be matched at a node and for names bound twice, whichever alarm that is. So none is raised, and what still
breaks off is the evaluation of a guard. The captures of every match bind all names that are certainly bound and only
names of the pattern, and no guard is noted that read an unbound name. -/
theorem captures_sound {grammar : Grammar} {given : Given} {pattern : Pattern}
    (hpattern : compileGiven grammar given = .ok pattern) (tree : Tree) (calls : List Call) :
    (∀ alarm, Watched.trace alarm pattern tree (recordAfter pattern tree calls) =
        trace pattern tree (recordAfter pattern tree calls) ∧
      ∀ id, ((Watched.atNode? alarm pattern tree id).run).run (recordAfter pattern tree calls) =
        ((atNode? pattern tree id).run).run (recordAfter pattern tree calls)) ∧
    (∀ found ∈ (trace pattern tree (recordAfter pattern tree calls)).found.map (·.1), Binds pattern found.captures) ∧
    (∀ id found, (((atNode? pattern tree id).run).run (recordAfter pattern tree calls)).1 = .ok (.ok (some found)) →
      Binds pattern found.captures) ∧
    (∀ name, .unbound name ∉ (recordAfter pattern tree calls).mishaps) ∧
    (∀ breakdown, (trace pattern tree (recordAfter pattern tree calls)).breakdown = some breakdown →
      Breaks pattern.root tree breakdown) ∧
    ∀ id breakdown, (((atNode? pattern tree id).run).run (recordAfter pattern tree calls)).1 = .error breakdown →
      Breaks pattern.root tree breakdown := by
  have hf := formed_of_compileGiven hpattern
  have hs := scopedRoot_of_compileGiven hpattern
  have hv : (recordAfter pattern tree calls).Valid pattern.root tree := valid_recordAfter hf calls
  have hc : (recordAfter pattern tree calls).Clean := clean_recordAfter hf hs calls
  have hfl := trace_follows hf hv
  refine ⟨fun alarm => ⟨watched_trace hf hs hv hc, fun id => ?_⟩, fun found hfn => ?_,
    fun id found hfn => ?_, hc, fun breakdown hb => (hfl.broken breakdown hb).1,
    fun id breakdown hb => ?_⟩
  · exact (agrees_atNode? hf hs id _ hv hc).1
  · exact Plain.binds_of_mem_attempts (Plain.mem_of_mem_distinct (hfl.mem hfn))
  · rcases (yields_atNode? hf id _ hv).2 with heq | ⟨breakdown, heq, -⟩
    · exact Plain.binds_atNode? (Except.ok.inj (heq.symm.trans hfn))
    · cases heq.symm.trans hfn
  · rcases (yields_atNode? hf id _ hv).2 with heq | ⟨same, heq, hbr⟩
    · cases heq.symm.trans hb
    · cases heq.symm.trans hb
      exact hbr

private theorem readShape_denied : readShape ">> x: !$y where x.text == \"a\"" =
    .ok (.guarded (.deep (.capture "x" (.negation (.metavar "y")))) letterGuard) := by
  have ht : (match readShape ">> x: !$y where x.text == \"a\"" with
    | .ok (.guarded (.deep (.capture name (.negation (.metavar denied))))
        ⟨src, .compare .equal (.capture read aspect) (.constant (.text letter))⟩) =>
      name == "x" && denied == "y" && src == "x.text == \"a\"" && read == "x" && aspect == some .text &&
        letter == "a"
    | _ => false) = true := by decide +kernel
  split at ht
  next name denied src read aspect letter hsh =>
    simp only [Bool.and_eq_true, beq_iff_eq] at ht
    obtain ⟨⟨⟨⟨⟨rfl, rfl⟩, rfl⟩, rfl⟩, rfl⟩, rfl⟩ := ht
    exact hsh
  · cases ht

private theorem checkTop_denied (g : Grammar) :
    checkTop g (.guarded (.deep (.capture "x" (.negation (.metavar "y")))) letterGuard) =
      .ok (.guarded 0 (.deep 1 (.capture 2 "x" (.negation 3 (.metavar 4 "y")))) letterGuard) := by
  have hr : letterGuard.references = ["x"] := by decide +kernel
  have hg : checkGuard
      ([] ++ (Instr.deep 1 (.capture 2 "x" (.negation 3 (.metavar 4 "y")))).surelyBinds) letterGuard = .ok () := by
    rw [checkGuard, hr]
    rfl
  change (checkGuard ([] ++ (Instr.deep 1 (.capture 2 "x" (.negation 3 (.metavar 4 "y")))).surelyBinds)
    letterGuard >>= fun _ => _) = _
  rw [hg]
  rfl

/-- A name that is bound below a node and read by a guard, and another one that is bound inside a negation only. -/
theorem captures_sound_of_denied : ∃ grammar pattern, Grammar.build Grammar.loop = .ok grammar ∧
    compileGiven grammar (.text ">> x: !$y where x.text == \"a\"") = .ok pattern ∧
      (∀ alarm, Watched.trace alarm pattern (Tree.parse grammar (.ofText (Text.ofString "aa")) Tree.defaultPath {})
          (recordAfter pattern (Tree.parse grammar (.ofText (Text.ofString "aa")) Tree.defaultPath {})
            [.run, .atNode 0]) =
        trace pattern (Tree.parse grammar (.ofText (Text.ofString "aa")) Tree.defaultPath {})
          (recordAfter pattern (Tree.parse grammar (.ofText (Text.ofString "aa")) Tree.defaultPath {})
            [.run, .atNode 0])) ∧
      ∀ name, .unbound name ∉
        (recordAfter pattern (Tree.parse grammar (.ofText (Text.ofString "aa")) Tree.defaultPath {})
          [.run, .atNode 0]).mishaps := by
  obtain ⟨grammar, hb⟩ := Grammar.exists_build_loop
  have hp := compileGiven_text readShape_denied (checkTop_denied grammar)
  obtain ⟨hw, -, -, hc, -⟩ := captures_sound hp
    (Tree.parse grammar (.ofText (Text.ofString "aa")) Tree.defaultPath {}) [.run, .atNode 0]
  exact ⟨grammar, _, hb, hp, fun alarm => (hw alarm).1, hc⟩

theorem resolve?_of_lt {node : Nat} (h : node < tree.size) : tree.resolve? node = some node := by
  have hp : ¬ (node : Int) < 0 := by omega
  simp [Tree.resolve?, resolveIndex?, hp, h]

private theorem resolve?_zero {g : Grammar} (hg : g.Tabulated) {src : Source} (hsr : src.Coherent)
    (path : String) (cfg : Config) : (Tree.parse g src path cfg).resolve? 0 = some 0 := by
  obtain ⟨cut, hgr⟩ := Tree.grown_parse hg hsr path cfg
  have hsz := Layout.size_pos (.root (Forest.parse g (tokenize g src) cfg).tokens src.size
      (Draft.ofForest (Forest.parse g (tokenize g src) cfg)))
  rw [← hgr.size_eq] at hsz
  exact resolve?_of_lt hsz

/-- A match at a node is ended by a guard that asks for two alphabets, although the guarded text is not there. -/
theorem atNode_breaks_off_on_empty : ∃ grammar pattern, Grammar.build Grammar.loop = .ok grammar ∧
    compileGiven grammar (.text "\"zzz\" where \"a\" =~ \"(?a)(?u)a\"") = .ok pattern ∧
      (((atNode? pattern (Tree.parse grammar (.ofText (Text.ofString "")) Tree.defaultPath {}) 0).run).run {}).1 =
        .error .alphabets := by
  obtain ⟨grammar, hb⟩ := Grammar.exists_build_loop
  have hg := (Grammar.built_of_build hb).tabulated
  refine ⟨grammar, clashing grammar, hb, compileGiven_text readShape_clash (checkTop_clash grammar), ?_⟩
  have hr := resolve?_zero hg (Source.coherent_ofText "") Tree.defaultPath {}
  obtain ⟨after, ha⟩ : Throws {}
      (atNode? (clashing grammar) (Tree.parse grammar (.ofText (Text.ofString "")) Tree.defaultPath {}) 0)
      .alphabets := by
    rw [atNode?, hr]
    exact (throws_matchNode (evaluate_found read_clash _ _ _ _) references_clash _ 0).bind.bind
  rw [ha]

end Match

end TreeLint
