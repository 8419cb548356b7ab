import Mathlib.Data.List.Induction
import TreeLint.Proofs.BatchOrder
import TreeLint.Session

/-!
# Trees used again

A session keeps the first tree for each name of a grammar, path and bytes. A later request gets that tree, whatever
grammar of that name and whatever bound on skipped tokens it comes with.

* `Lint.coincide_lintTree`: apart from the reports of broken rules, linting does not depend on what was reported before;
* `Session.lookup_after`: the trees that are kept after any calls;
* `Session.tree_after`: the tree that a request gets was parsed for the first request with its key;
* `Session.parse_congr`: requests with one key that agree in grammar, bound and text have one tree;
* `Session.reuse_of_agreement`: between such requests it makes no difference that trees are used again.
-/

namespace TreeLint

open List

/-! ## Reports of broken rules -/

namespace Lint

variable {rules : List Rule} {rule : Rule} {tree : Tree} {config : Config} {suppressions : Suppressions}

/-- Whether a diagnostic is something else than the report of a broken rule. -/
def isProper (diagnostic : Diagnostic) : Bool :=
  diagnostic.kind != Diagnostic.configErrorKind

/-- Whatever was reported before, two computations give the same as far as a view of their values shows. -/
def Coincide {α β : Type} (view : α → β) (first second : Linting α) : Prop :=
  ∀ reported reported', (((first.run).run reported).1).map view = (((second.run).run reported').1).map view

theorem coincide_pure {α β : Type} {view : α → β} {value value' : α} (h : view value = view value') :
    Coincide view (pure value) (pure value') :=
  fun _ _ => congrArg Except.ok h

theorem Coincide.bind {α β γ δ : Type} {view : α → β} {view' : γ → δ} {first first' : Linting α}
    {next next' : α → Linting γ} (hf : Coincide view first first')
    (hn : ∀ value value', view value = view value' → Coincide view' (next value) (next' value')) :
    Coincide view' (first >>= next) (first' >>= next') := by
  intro reported reported'
  have hv := hf reported reported'
  rcases hr : (first.run).run reported with ⟨_ | value, after⟩ <;>
    rcases hr' : (first'.run).run reported' with ⟨_ | value', after'⟩ <;> rw [hr, hr'] at hv
  · rw [run_bind_error hr, run_bind_error hr']
    cases hv
    rfl
  · cases hv
  · cases hv
  · rw [run_bind_ok hr, run_bind_ok hr']
    exact hn value value' (Except.ok.inj hv) after after'

private theorem coincide_evaluateRule (tree : Tree) (config : Config) (suppressions : Suppressions) (rule : Rule) :
    Coincide (·.filter isProper) (evaluateRule tree config suppressions rule)
      (evaluateRule tree config suppressions rule) := by
  intro reported reported'
  rcases evaluateRule_cases tree config suppressions rule with h | ⟨defect, h⟩ | h
  · rw [h, h]
  · have hn (reported : List String) : ((((evaluateRule tree config suppressions rule).run).run reported).1).map
        (·.filter isProper) = .ok [] := by
      rw [h]
      split <;> rfl
    rw [hn, hn]
  · rw [h, h]

private theorem coincide_evaluateAll (tree : Tree) (config : Config) (suppressions : Suppressions) (rules : List Rule) :
    Coincide (·.filter isProper) (evaluateAll tree config suppressions rules)
      (evaluateAll tree config suppressions rules) := by
  induction rules with
  | nil => exact coincide_pure rfl
  | cons rule rules ih =>
    refine (coincide_evaluateRule tree config suppressions rule).bind fun first first' hf => ?_
    refine ih.bind fun others others' ho => coincide_pure ?_
    simp only [filter_append, hf, ho]

/-- Apart from the reports of broken rules, linting a tree does not depend on what was reported before. -/
theorem coincide_lintTree (rules : List Rule) (tree : Tree) (path : String) (config : Config) :
    Coincide (·.filter isProper) (lintTree rules tree path config) (lintTree rules tree path config) := by
  have he : Coincide (·.filter isProper) (evaluate rules tree config) (evaluate rules tree config) := by
    refine (coincide_evaluateAll tree config (.ofTree tree) rules).bind fun found found' hf => coincide_pure ?_
    rw [Diagnostic.filter_sort, Diagnostic.filter_sort, hf]
  refine he.bind fun found found' hf => coincide_pure ?_
  rw [Diagnostic.filter_sort, Diagnostic.filter_sort, filter_append, filter_append, hf]

end Lint

namespace Session

/-! ## Requests -/

/-- What a session is asked to parse. -/
structure Request where
  grammar : Grammar
  source : Source
  path : String
  config : Config
  read : (∃ bytes, source = .ofBytes bytes) ∨ ∃ text, source = .ofText text

namespace Request

def key (request : Request) : TreeKey :=
  { grammar := request.grammar.name, path := request.path, bytes := request.source.bytes }

def parse (request : Request) : Tree :=
  Tree.parse request.grammar request.source request.path request.config

/-- Whether a request may leave its tree behind for another one. -/
def serves (first second : Request) : Bool :=
  first.config.cacheTrees && first.key == second.key

/-- What two requests with one key may still differ in: the grammar behind the name, the bound on skipped tokens, and
the text, if it was not read back from its bytes. -/
structure Agree (first second : Request) : Prop where
  grammar_eq : first.grammar = second.grammar
  bound_eq : first.config.recoverySkipBound = second.config.recoverySkipBound
  text_eq : Canonical first.source.text ∧ Canonical second.source.text ∨ first.source.text = second.source.text

end Request

/-- Something that is asked of a session. -/
inductive Call where
  | tree (request : Request)
  | lint (request : Request) (rules : List Rule)

def Call.request : Call → Request
  | tree request | lint request _ => request

def answer (session : Session) (request : Request) : SessionTree × Session :=
  session.treeFor request.grammar request.source request.path request.config

def findings (session : Session) (request : Request) (rules : List Rule) :
    Except Breakdown (List Diagnostic) × Session :=
  session.lint request.grammar rules request.source request.path request.config

def Call.leave (session : Session) : Call → Session
  | tree request => (session.answer request).2
  | lint request rules => (session.findings request rules).2

def after (calls : List Call) : Session :=
  calls.foldl Call.leave {}

/-- The request whose tree another one gets after some calls: the first of those that may serve it, or itself. -/
def server (calls : List Call) (request : Request) : Request :=
  if request.config.cacheTrees then ((calls.map Call.request).find? (·.serves request)).getD request else request

/-! ## The trees that are kept -/

variable {session : Session} {calls : List Call} {first request : Request}

/-- A request without keeping parses anew and leaves the session as it is. -/
private theorem answer_of_not_cacheTrees (session : Session) (h : request.config.cacheTrees = false) :
    session.answer request = (⟨request.parse, none⟩, session) := by
  unfold answer treeFor
  simp [h, Request.parse]

/-- A request with keeping gets the tree under its key, and parses only if there is none. -/
private theorem answer_of_cacheTrees (session : Session) (h : request.config.cacheTrees = true) :
    (session.answer request).1.tree = (session.trees.lookup request.key).getD request.parse ∧
      (session.answer request).2.trees = (session.trees.lookup request.key).elim
        ((request.key, request.parse) :: session.trees) fun _ => session.trees := by
  have hk : ({ grammar := request.grammar.name, path := request.path, bytes := request.source.bytes } : TreeKey) =
      request.key := rfl
  unfold answer treeFor
  simp only [h, Bool.not_true, Bool.false_eq_true, if_false, hk]
  cases session.trees.lookup request.key with
  | none | some => exact ⟨rfl, rfl⟩

/-- Findings do not change which trees are kept. -/
private theorem trees_leave (session : Session) (call : Call) :
    (call.leave session).trees = (session.answer call.request).2.trees := by
  cases call with
  | tree request => rfl
  | lint request rules => rfl

private theorem lookup_answer (session : Session) (first request : Request) :
    (session.answer first).2.trees.lookup request.key =
      (session.trees.lookup request.key).or (if first.serves request then some first.parse else none) := by
  cases hc : first.config.cacheTrees with
  | false =>
    rw [answer_of_not_cacheTrees session hc]
    simp [Request.serves, hc]
  | true =>
    rw [(answer_of_cacheTrees session hc).2]
    by_cases hk : first.key = request.key
    · rw [Request.serves, hc, hk]
      cases ht : session.trees.lookup request.key <;> simp [ht]
    · have hb : (request.key == first.key) = false := by simpa using Ne.symm hk
      rw [Request.serves, beq_false_of_ne hk]
      cases session.trees.lookup first.key <;> simp [lookup_cons, hb]

/-- After any calls, the tree under a key is that of the first request that could leave it there. -/
theorem lookup_after (calls : List Call) (request : Request) : (after calls).trees.lookup request.key =
      ((calls.map Call.request).find? (·.serves request)).map Request.parse := by
  -- by induction from the end, as the last call comes upon all trees of the earlier ones
  induction calls using List.reverseRecOn with
  | nil => rfl
  | append_singleton calls call ih =>
    have hl : after (calls ++ [call]) = call.leave (after calls) := foldl_concat ..
    rw [hl, trees_leave, lookup_answer, ih, map_append, find?_append]
    cases (calls.map Call.request).find? (·.serves request) with
    | some _ => rfl
    | none => cases hs : call.request.serves request <;> simp [hs]

theorem tree_after (calls : List Call) (request : Request) :
    ((after calls).answer request).1.tree = (server calls request).parse := by
  unfold server
  cases hc : request.config.cacheTrees with
  | false => rw [answer_of_not_cacheTrees _ hc]; rfl
  | true =>
    rw [(answer_of_cacheTrees _ hc).1, lookup_after, if_pos rfl]
    cases (calls.map Call.request).find? (·.serves request) <;> rfl

/-! ## Requests that agree -/

private theorem eq_ofParts {src : Source} (h : (∃ bytes, src = .ofBytes bytes) ∨ ∃ text, src = .ofText text) :
    src = .ofParts src.bytes src.text ∧ encode src.text = src.bytes := by
  rcases h with ⟨bytes, rfl⟩ | ⟨text, rfl⟩
  · exact ⟨rfl, encode_decode bytes⟩
  · exact ⟨rfl, rfl⟩

theorem parse_congr (hk : first.key = request.key) (h : first.Agree request) : first.parse = request.parse := by
  obtain ⟨hf, he⟩ := eq_ofParts first.read
  obtain ⟨hr, he'⟩ := eq_ofParts request.read
  have hp : first.path = request.path := congrArg TreeKey.path hk
  have hb : first.source.bytes = request.source.bytes := congrArg TreeKey.bytes hk
  have ht : first.source.text = request.source.text := by
    rcases h.text_eq with ⟨hc, hc'⟩ | heq
    · calc first.source.text = decode (encode first.source.text) := hc.symm
        _ = decode (encode request.source.text) := by rw [he, he', hb]
        _ = request.source.text := hc'
    · exact heq
  have hs : first.source = request.source := by rw [hf, hr, hb, ht]
  unfold Request.parse Tree.parse Forest.parse
  rw [h.grammar_eq, h.bound_eq, hs, hp]

/-- The request whose tree another one gets has its key. -/
private theorem server_eq_or (calls : List Call) (request : Request) : server calls request = request ∨
      server calls request ∈ calls.map Call.request ∧ (server calls request).serves request := by
  unfold server
  split
  · cases hf : (calls.map Call.request).find? (·.serves request) with
    | none => exact .inl rfl
    | some first =>
      have hs := find?_some hf
      exact .inr ⟨mem_of_find?_eq_some hf, hs⟩
  · exact .inl rfl

/-- What a session finds depends on the tree and, apart from the reports of broken rules, on nothing else. -/
private theorem findings_congr {session session' : Session} (rules : List Rule)
    (h : (session.answer request).1.tree = (session'.answer request).1.tree) :
    (session.findings request rules).1.map (·.filter Lint.isProper) =
      (session'.findings request rules).1.map (·.filter Lint.isProper) := by
  have hv := Lint.coincide_lintTree rules (session.answer request).1.tree request.path request.config
    (session.answer request).2.reported (session'.answer request).2.reported
  nth_rewrite 2 [h] at hv
  exact hv

/-- After any calls, a request gets the tree of the first request with its key that could be kept. If all those agree
with it in grammar, bound and text, then it gets the tree that it would get in a new session, and apart from the reports
of broken rules every list of rules finds what it would find in a new session. -/
theorem reuse_of_agreement (calls : List Call) (request : Request) :
    ((after calls).answer request).1.tree = (server calls request).parse ∧
    ((∀ call ∈ calls, call.request.serves request → call.request.Agree request) →
      ((after calls).answer request).1.tree = request.parse ∧
      ∀ rules, ((after calls).findings request rules).1.map (·.filter Lint.isProper) =
        (({} : Session).findings request rules).1.map (·.filter Lint.isProper)) := by
  refine ⟨tree_after calls request, fun ha => ?_⟩
  have ht : ((after calls).answer request).1.tree = request.parse := by
    rw [tree_after]
    rcases server_eq_or calls request with heq | ⟨hm, hs⟩
    · rw [heq]
    · obtain ⟨call, hc, hr⟩ := mem_map.1 hm
      rw [← hr] at hs ⊢
      have hk : call.request.key = request.key := eq_of_beq (Bool.and_eq_true_iff.1 hs).2
      exact parse_congr hk (ha call hc hs)
  refine ⟨ht, fun rules => findings_congr rules ?_⟩
  -- a new session has no tree to give
  have hn : (({} : Session).answer request).1.tree = request.parse := by
    rw [show ({} : Session) = after [] from rfl, tree_after, server]
    simp
  rw [ht, hn]

/-- A source that is given first by its bytes and then by its text, under other settings. -/
theorem reuse_of_agreement_of_bytes : ∃ grammar, Grammar.build Grammar.loop = .ok grammar ∧
    ((after [.tree ⟨grammar, .ofBytes [0x61], "p", { minSeverity := "error" }, .inl ⟨_, rfl⟩⟩]).answer
      ⟨grammar, .ofText (Text.ofString "a"), "p", {}, .inr ⟨_, rfl⟩⟩).1.tree =
        Tree.parse grammar (.ofText (Text.ofString "a")) "p" {} := by
  obtain ⟨grammar, hb⟩ := Grammar.exists_build_loop
  refine ⟨grammar, hb, ((reuse_of_agreement _ ⟨grammar, _, "p", {}, _⟩).2 fun call hc _ => ?_).1⟩
  obtain rfl := mem_singleton.1 hc
  exact ⟨rfl, rfl, .inl ⟨canonical_decode _, canonical_ofString "a"⟩⟩

/-! ## Requests that do not agree -/

/-- A grammar that has the name of another one and stands for one token. -/
def namesake : Grammar.Description :=
  { Grammar.loop with productions := [{ name := "A", alternatives := [{ symbols := [.literal "a"] }] }] }

private theorem name_of_build {desc : Grammar.Description} {g : Grammar}
    (h : Grammar.build desc = .ok g) : g.name = desc.name := by
  have hc := mapError_eq_ok_iff.1 h
  unfold Grammar.check at hc
  simp only [bind_eq_ok_iff, liftM_eq_ok_iff, mapError_eq_ok_iff, pure_eq_ok_iff] at hc
  obtain ⟨_, -, _, -, _, -, _, -, _, -, _, -, _, -, _, -, _, -, _, -, rfl⟩ := hc
  rfl

/-- The empty source has no problems exactly if the grammar generates the empty sequence. -/
private theorem problems_parse_nil_iff {desc : Grammar.Description} {g : Grammar}
    (h : Grammar.build desc = .ok g) (path : String) (config : Config) :
    (Tree.parse g (.ofText []) path config).problems = [] ↔ g.Generates g.start [] := by
  have hg := (Grammar.built_of_build h).tabulated
  have hf := Forest.faithful_parse hg [] config
  have ht : tokenize g (.ofText []) = [] := by
    rw [tokenize, piecesFrom]
    rfl
  have hp : (Tree.parse g (.ofText []) path config).problems =
      (Forest.parse g [] config).problems.mergeSort Problem.precedes := by
    unfold Tree.parse
    rw [ht]
    rfl
  have hn : (Tree.parse g (.ofText []) path config).problems = [] ↔
      (Forest.parse g [] config).problems = [] := by
    rw [hp, ← length_eq_zero_iff, length_mergeSort, length_eq_zero_iff]
  have hk : (Forest.meaningfulKinds []).toList = [] := Forest.toList_meaningfulKinds []
  have hw : Chart.word (Forest.meaningfulKinds []) 0 (Forest.meaningfulKinds []).size = [] := by
    simp [Chart.word, hk]
  rw [hn, Forest.problems_eq_nil_iff, ← Forest.size_meaningfulKinds]
  constructor
  · rintro ⟨hgp, -, ha⟩
    exact hw ▸ hf.generates_of_accepts hg hgp ha
  · exact hk ▸ hf.accepts_of_generates hg

/-- After a tree was kept for one grammar, a request with another grammar of that name gets it, and is not told that the
empty source is no sentence. -/
theorem reuse_hides_problems : ∃ grammar other, Grammar.build Grammar.loop = .ok grammar ∧
    Grammar.build namesake = .ok other ∧
    ((after [.tree ⟨grammar, .ofText [], "p", {}, .inr ⟨_, rfl⟩⟩]).answer
      ⟨other, .ofText [], "p", {}, .inr ⟨_, rfl⟩⟩).1.tree.problems = [] ∧
    (Tree.parse other (.ofText []) "p" {}).problems ≠ [] := by
  obtain ⟨grammar, hb⟩ := Grammar.exists_build_loop
  obtain ⟨other, ho⟩ : ∃ other, Grammar.build namesake = .ok other := by
    have hok : (Grammar.build namesake).isOk = true := by decide +kernel
    exact exists_eq_ok hok
  refine ⟨grammar, other, hb, ho, ?_, ?_⟩
  · have hn : grammar.name = other.name := (name_of_build hb).trans (name_of_build ho).symm
    have hs (read read') :
        Request.serves ⟨grammar, .ofText [], "p", {}, read⟩ ⟨other, .ofText [], "p", {}, read'⟩ = true := by
      simp [Request.serves, Request.key, hn]
    rw [tree_after, server, if_pos rfl, map_singleton, Call.request, find?_cons, hs]
    exact (problems_parse_nil_iff hb "p" {}).2 (Grammar.built_of_build hb).generates_loop.2
  · have hbl := Grammar.built_of_build ho
    rw [Ne, problems_parse_nil_iff ho, ← hbl.tabulated.isNullable_iff, Grammar.isNullable, hbl.nullTable_eq,
      hbl.alternatives_eq, hbl.start_eq]
    decide +kernel

end Session

end TreeLint
