import TreeLint.Proofs.RecordedSearch

/-!
# The kinds of anchors

A search tries only nodes of the kinds that a pattern can match, where these are known, and all nodes but trivia where
they are not.

* `Plain.kindId_mem_of_matchNode`: an instruction that matches a node is one that can match its kind;
* `Plain.run_eq`: so trying more nodes would find nothing else;
* `search_misses_nothing`: this holds for a search with a record too, after any calls.
-/

namespace TreeLint

open List

namespace Match

open Pattern (Instr)

variable {tree : Tree} {pattern : Pattern} {node : Nat}

/-! ## Kinds that are matched -/

private theorem subset_of_unionKinds {lists : List (Option (List Nat))} {all : List Nat}
    (h : Instr.unionKinds lists = some all) {kinds : Option (List Nat)} (hk : kinds ∈ lists) :
    ∃ known, kinds = some known ∧ known ⊆ all := by
  induction lists generalizing all with
  | nil => cases hk
  | cons first lists ih =>
    cases first with
    | none => cases h
    | some known =>
      obtain ⟨others, ho, rfl⟩ := Option.map_eq_some_iff.1 h
      rcases mem_cons.1 hk with rfl | hk
      · exact ⟨known, rfl, subset_append_left _ _⟩
      · obtain ⟨later, hl, hs⟩ := ih ho hk
        exact ⟨later, hl, fun kind hkn => mem_append_right _ (hs hkn)⟩

theorem kindsMatchedOfAll_eq_map (options : List Instr) :
    Instr.kindsMatchedOfAll options = options.map Instr.kindsMatched := by
  induction options with
  | nil => rfl
  | cons option options ih => rw [Instr.kindsMatchedOfAll, ih, map_cons]

namespace Plain

theorem kindId_mem_of_matchNode {instr : Instr} {bindings found : Bindings} {check : Bindings → Bool} {kinds : List Nat}
    (hf : matchNode tree instr node bindings check = some found) (hk : instr.kindsMatched = some kinds) :
    (tree.node node).kindId ∈ kinds := by
  induction instr using Instr.induction generalizing check found kinds with
  | step instr ih =>
    cases instr with
    | kind id name kindId | node id name kindId items =>
      cases hk
      rw [matchNode, Option.ite_none_right_eq_some] at hf
      exact mem_singleton.2 (eq_of_beq hf.1)
    | capture id name inner =>
      rw [matchNode] at hf
      obtain ⟨others, ho, -⟩ := Option.map_eq_some_iff.1 hf
      exact ih inner mem_cons_self ho hk
    | guarded id inner pred => exact ih inner mem_cons_self hf hk
    | oneOf id options =>
      obtain ⟨option, hop, hm⟩ := exists_of_matchOptions hf
      have hmm : option.kindsMatched ∈ Instr.kindsMatchedOfAll options := by
        rw [kindsMatchedOfAll_eq_map]
        exact mem_map_of_mem hop
      obtain ⟨known, hkn, hs⟩ := subset_of_unionKinds hk hmm
      exact hs (ih option hop hm hkn)
    | _ => cases hk

theorem eq_of_atNode {root : Instr} {found : Match} (h : atNode tree root node = some found) :
    found.anchor = node ∧ ∃ captures, matchNode tree root node [] (fun _ => true) = some captures := by
  obtain ⟨captures, hc, rfl⟩ := Option.map_eq_some_iff.1 h
  exact ⟨rfl, captures, hc⟩

private theorem kindId_mem_anchorKinds {found : Match} (h : atNode tree pattern.root node = some found)
    {kinds : List Nat}
    (hk : pattern.anchorKinds = some kinds) : (tree.node node).kindId ∈ kinds := by
  obtain ⟨-, captures, hc⟩ := eq_of_atNode h
  obtain ⟨known, hkn, rfl⟩ := Option.map_eq_some_iff.1 hk
  rw [mem_mergeSort, mem_eraseDups]
  exact kindId_mem_of_matchNode hc hkn

/-! ## Searches -/

private theorem distinct_map_atNode (root : Instr) {nodes : List Nat} (hn : nodes.Nodup) {seen : List Match}
    (hs : ∀ found ∈ seen, found.anchor ∉ nodes) :
    distinct seen (nodes.map (atNode tree root)) = nodes.filterMap (atNode tree root) := by
  induction nodes generalizing seen with
  | nil => rfl
  | cons node nodes ih =>
    obtain ⟨hnw, hn⟩ := nodup_cons.1 hn
    have hl : ∀ found ∈ seen, found.anchor ∉ nodes := fun found hf hm =>
      hs found hf (mem_cons_of_mem _ hm)
    rw [map_cons]
    cases hat : atNode tree root node with
    | none => rw [distinct, filterMap_cons_none hat, ih hn hl]
    | some found =>
      have ha : found.anchor = node := (eq_of_atNode hat).1
      have hfr : ¬ seen.contains found.key := by
        rw [contains_iff_mem]
        exact fun hm => hs _ hm (ha ▸ mem_cons_self)
      rw [distinct, if_neg hfr, filterMap_cons_some hat, ih hn]
      exact forall_mem_cons.2 ⟨show found.anchor ∉ nodes from ha ▸ hnw, hl⟩

end Plain

/-- The nodes at which a search gives a match if there is one: all nodes where the kinds of anchors are known, and else
those that are no trivia. -/
def searched (pattern : Pattern) (tree : Tree) : List Nat :=
  (List.range tree.size).filter fun id => pattern.anchorKinds.isSome || !(tree.node id).trivia

private theorem pairwise_searched : (searched pattern tree).Pairwise (· < ·) :=
  pairwise_lt_range.filter _

theorem mem_searched : node ∈ searched pattern tree ↔
      node < tree.size ∧ (pattern.anchorKinds.isSome ∨ (tree.node node).trivia = false) := by
  simp [searched]

namespace Plain

private theorem filterMap_candidates (pattern : Pattern) (tree : Tree) :
    (candidates pattern tree).filterMap (atNode tree pattern.root) =
      (searched pattern tree).filterMap (atNode tree pattern.root) := by
  unfold candidates searched
  cases hk : pattern.anchorKinds with
  | none => rfl
  | some kinds =>
    rw [filterMap_filter, filterMap_filter]
    refine filterMap_congr fun node _ => ?_
    rw [Option.isSome_some, Bool.true_or, if_pos rfl]
    split
    · rfl
    next ho =>
      cases hat : atNode tree pattern.root node with
      | none => rfl
      | some found => exact absurd (contains_iff_mem.2 (kindId_mem_anchorKinds hat hk)) ho

/-- A search for single nodes finds what matches at the nodes, in their order. -/
theorem run_eq (hn : pattern.isSequence = false) (tree : Tree) :
    run pattern tree = (searched pattern tree).filterMap (atNode tree pattern.root) := by
  have ha : attempts pattern tree = (candidates pattern tree).map (atNode tree pattern.root) := by
    unfold attempts
    split
    next id items guard hr =>
      rw [Pattern.isSequence, hr] at hn
      cases hn
    · rfl
  have hnd : (candidates pattern tree).Nodup := by
    unfold candidates
    split <;> exact nodup_range.filter _
  rw [run, ha, distinct_map_atNode _ hnd (forall_mem_nil _), filterMap_candidates]

private theorem pairwise_anchors (root : Instr) {nodes : List Nat} (h : nodes.Pairwise (· < ·)) :
    (nodes.filterMap (atNode tree root)).Pairwise fun first second => first.anchor < second.anchor := by
  rw [pairwise_filterMap]
  refine h.imp fun hlt first hf second hs => ?_
  rwa [(eq_of_atNode hf).1, (eq_of_atNode hs).1]

end Plain

/-- After any calls, a search for single nodes gives what matches at the nodes one by one, in their order, unless the
evaluation of a guard breaks down: at all nodes where the kinds of anchors are known, and else at those that are no
trivia. Where the kinds are known, there is no match at a node of another kind. -/
theorem search_misses_nothing {grammar : Grammar} {given : Pattern.Given} {pattern : Pattern}
    (hpattern : Pattern.compileGiven grammar given = .ok pattern) (hnode : pattern.isSequence = false) (tree : Tree)
    (calls : List Call) :
    (trace pattern tree (recordAfter pattern tree calls)).Follows pattern.root tree
      ((searched pattern tree).filterMap (Plain.atNode tree pattern.root)) ∧
    ((searched pattern tree).filterMap (Plain.atNode tree pattern.root)).Pairwise
      (fun first second => first.anchor < second.anchor) ∧
    (∀ id node, tree.resolve? id = some node → Gives pattern.root tree (Breaks pattern.root tree ·)
      (recordAfter pattern tree calls) (atNode? pattern tree id) (.ok (Plain.atNode tree pattern.root node))) ∧
    ∀ node found, Plain.atNode tree pattern.root node = some found →
      found.anchor = node ∧ ∀ kinds, pattern.anchorKinds = some kinds → (tree.node node).kindId ∈ kinds := by
  have hf := Pattern.formed_of_compileGiven hpattern
  have hv : (recordAfter pattern tree calls).Valid pattern.root tree := valid_recordAfter hf calls
  refine ⟨?_, Plain.pairwise_anchors _ pairwise_searched, fun id node hid => ?_, fun node found hfn => ?_⟩
  · rw [← Plain.run_eq hnode]
    exact trace_follows hf hv
  · have hp : Plain.atNode? pattern tree id = .ok (Plain.atNode tree pattern.root node) := by
      rw [Plain.atNode?, hnode, hid]
      rfl
    rw [← hp]
    exact yields_atNode? hf id _ hv
  · exact ⟨(Plain.eq_of_atNode hfn).1, fun kinds => Plain.kindId_mem_anchorKinds hfn⟩

/-- A guarded capture, searched for once more after a search and a match at the first node. -/
theorem search_misses_nothing_of_letter : ∃ grammar pattern, Grammar.build Grammar.loop = .ok grammar ∧
    Pattern.compileGiven grammar (.text "x: _ where x.text == \"a\"") = .ok pattern ∧ pattern.isSequence = false ∧
      (trace pattern (Tree.parse grammar (.ofText (Text.ofString "a")) Tree.defaultPath {})
        (recordAfter pattern (Tree.parse grammar (.ofText (Text.ofString "a")) Tree.defaultPath {})
          [.run, .atNode 0])).found.map (·.1) =
        (searched pattern (Tree.parse grammar (.ofText (Text.ofString "a")) Tree.defaultPath {})).filterMap
          (Plain.atNode (Tree.parse grammar (.ofText (Text.ofString "a")) Tree.defaultPath {}) pattern.root) := by
  obtain ⟨grammar, hb⟩ := Grammar.exists_build_loop
  have hp := Pattern.compileGiven_text readShape_letterGuard (checkTop_letterGuard grammar)
  refine ⟨grammar, _, hb, hp, rfl, ?_⟩
  have hf := (search_misses_nothing hp rfl
    (Tree.parse grammar (.ofText (Text.ofString "a")) Tree.defaultPath {}) [.run, .atNode 0]).1
  exact hf.complete (hf.ends (not_breaks_letterGuard _))

end Match

end TreeLint
