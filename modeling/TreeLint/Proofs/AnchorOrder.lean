import TreeLint.Proofs.Lossless
import TreeLint.Proofs.RecordedSearch

/-!
# The order of matches

A search gives at most one match for each place that it tries, in the order of the places.

* `sublist_collect`: the anchors of the matches are among those of the places, in the same order;
* `searched_in_order`: single nodes come in the order of their numbers. Runs of siblings come in the order of their
  parents, and only below one parent in that of their first nodes, so that a run may come before one that starts
  earlier, deeper in the tree.
-/

namespace TreeLint

open List

namespace Layout

private theorem pairwise_childIds (first : Nat) (layouts : List Layout) : (childIds first layouts).Pairwise
    (· < ·) := by
  induction layouts generalizing first with
  | nil => exact .nil
  | cons layout layouts ih =>
    refine .cons (fun number hn => ?_) (ih _)
    have := le_of_mem_childIds hn
    have := layout.size_pos
    omega

end Layout

namespace Tree

/-- Whether a node comes before another by the order of their parents, then by their own. -/
def PrecedesByParent (tree : Tree) (first second : Nat) : Prop :=
  ∃ above other, (tree.node first).parent = some above ∧ (tree.node second).parent = some other ∧
    (above < other ∨ above = other ∧ first < second)

/-- The children of every node are in order, and it is their parent. -/
def Linked (tree : Tree) : Prop :=
  ∀ id, (tree.node id).children.Pairwise (· < ·) ∧ ∀ child ∈ (tree.node id).children, (tree.node child).parent = some id

private theorem linked_parse (g : Grammar) (src : Source) (path : String) (cfg : Config) :
    (parse g src path cfg).Linked := by
  intro id
  by_cases hid : id < (parse g src path cfg).size
  · have hf : Layout.Filed (parse g src path cfg) none 0 _ := Layout.filed_ofForest ..
    have hs : (parse g src path cfg).size = _ := Layout.size_ofForest ..
    obtain ⟨found, above, hfn, -, -⟩ := hf.exists_at (P := fun _ => True) (fun _ _ _ _ => trivial) trivial
      (Nat.zero_le id) (by omega)
    rw [hfn.node_eq, Layout.head_children]
    exact ⟨Layout.pairwise_childIds _ _, fun child hc => hfn.children.parent_eq hc⟩
  · rw [Grown.node_of_size_le (by omega)]
    exact ⟨.nil, forall_mem_nil _⟩

private theorem Linked.pairwise_significantChildren {tree : Tree} (ht : tree.Linked) (inner : Nat → Bool) :
    (((List.range tree.size).filter inner).flatMap tree.significantChildren).Pairwise tree.PrecedesByParent := by
  have hp : ∀ {id child}, child ∈ tree.significantChildren id → (tree.node child).parent = some id :=
    fun hc => (ht _).2 _ (mem_of_mem_filter hc)
  rw [pairwise_flatMap]
  constructor
  · intro id _
    have hch : (tree.significantChildren id).Pairwise (· < ·) := (ht id).1.filter _
    refine hch.imp_of_mem fun hf hs hlt => ?_
    exact ⟨id, id, hp hf, hp hs, .inr ⟨rfl, hlt⟩⟩
  · refine (pairwise_lt_range.filter inner).imp fun hlt first hf second hs => ?_
    exact ⟨_, _, hp hf, hp hs, .inl hlt⟩

end Tree

namespace Match

open Pattern (Instr)

/-! ## Anchors of attempts -/

def AnchoredAt (attempt : Matching (Option Match)) (anchor : Nat) : Prop :=
  ∀ record found, ((attempt.run).run record).1 = .ok (some found) → found.anchor = anchor

private theorem anchoredAt_atNode (tree : Tree) (root : Instr) (node : Nat) :
    AnchoredAt (atNode tree root node) node := by
  intro record found hf
  rw [atNode, run_bind] at hf
  split at hf
  · obtain ⟨captures, -, rfl⟩ := Option.map_eq_some_iff.1 (Except.ok.inj hf)
    rfl
  · cases hf

private theorem anchoredAt_ofSiblings (tree : Tree) (owner : Nat) (items : List Instr) (pending : List Pending)
    (parent : Nat)
    (siblings : List Nat) : AnchoredAt (ofSiblings tree owner items pending parent siblings) (siblings.headD 0) := by
  intro record found hf
  rw [ofSiblings, run_bind] at hf
  split at hf
  next outcome after hi =>
    split at hf
    · cases hf
    next captures left =>
      split at hf
      · cases hf
      next anchor others ht =>
        cases hf
        cases siblings with
        | nil => rw [take_nil] at ht; cases ht
        | cons sibling siblings =>
          have hh := congrArg List.head? ht
          rw [head?_take] at hh
          split at hh
          · cases hh
          · exact (Option.some.inj hh).symm
  · cases hf

private theorem heads_siblingRuns (tree : Tree) : (siblingRuns tree).map (fun run => run.2.headD 0) =
      ((List.range tree.size).filter fun id => !(tree.node id).isLeaf).flatMap tree.significantChildren := by
  rw [siblingRuns, map_flatMap]
  congr 1
  funext id
  rw [map_map]
  refine ext_getElem (by simp) fun place hp hlt => ?_
  simp [headD_eq_head?_getD, getElem?_eq_getElem hlt]

theorem sublist_collect {attempts : List (Matching (Option Match))} {anchors : List Nat}
    (h : List.Forall₂ AnchoredAt attempts anchors) (record : Record) (seen : List Match) :
    ((collect record seen attempts).found.map (·.1.anchor)).Sublist anchors := by
  induction h generalizing record seen with
  | nil => exact .refl _
  | @cons attempt anchor attempts anchors ha _ ih =>
    rw [collect]
    split
    · exact nil_sublist _
    next after hr => exact (ih after seen).cons _
    next found after hr =>
      split
      · exact (ih after seen).cons _
      · rw [← ha record found (by rw [hr])]
        exact (ih after _).cons_cons _

/-! ## Searches in parsed trees -/

/-- The order of the anchors that a search gives. -/
def SearchOrder (pattern : Pattern) (tree : Tree) (first second : Nat) : Prop :=
  if pattern.isSequence then tree.PrecedesByParent first second else first < second

/-- Matches in the order of the search, no two with one anchor, of which a limit keeps the first. -/
structure Trace.InOrder (pattern : Pattern) (tree : Tree) (trace : Trace) : Prop where
  ordered : (trace.found.map (·.1.anchor)).Pairwise (SearchOrder pattern tree)
  distinct : (trace.found.map (·.1.anchor)).Nodup
  limited : ∀ limit, trace.firstMatches limit = .ok ((trace.found.map (·.1)).take limit) ∨ ∃ breakdown,
    trace.firstMatches limit = .error breakdown ∧ trace.breakdown = some breakdown ∧ trace.found.length ≤ limit
  kept_first : ∀ limit, ∀ kept ∈ (trace.found.map (·.1)).take limit, ∀ later ∈ (trace.found.map (·.1)).drop limit,
    SearchOrder pattern tree kept.anchor later.anchor

variable {pattern : Pattern} {tree : Tree}

private theorem SearchOrder.ne {first second : Nat} (h : SearchOrder pattern tree first second) : first ≠ second := by
  rintro rfl
  unfold SearchOrder at h
  split at h
  · obtain ⟨above, other, ha, ho, hlt⟩ := h
    cases ha.symm.trans ho
    omega
  · omega

private theorem exists_anchors (ht : tree.Linked) (pattern : Pattern) :
    ∃ anchors, List.Forall₂ AnchoredAt (attempts pattern tree) anchors ∧
      anchors.Pairwise (SearchOrder pattern tree) := by
  have hn : List.Forall₂ AnchoredAt ((candidates pattern tree).map (atNode tree pattern.root))
      (candidates pattern tree) := by
    rw [forall₂_map_left_iff, forall₂_same]
    exact fun node _ => anchoredAt_atNode tree pattern.root node
  have hc : (candidates pattern tree).Pairwise (· < ·) := by
    unfold candidates
    split <;> exact pairwise_lt_range.filter _
  unfold attempts SearchOrder Pattern.isSequence
  generalize pattern.root = root at hn ⊢
  cases root with
  | siblings id items guard =>
    refine ⟨(siblingRuns tree).map fun run => run.2.headD 0, ?_, ?_⟩
    · dsimp only
      rw [forall₂_map_left_iff, forall₂_map_right_iff, forall₂_same]
      exact fun run _ => anchoredAt_ofSiblings tree id items _ run.1 run.2
    · rw [heads_siblingRuns]
      exact ht.pairwise_significantChildren _
  | _ => exact ⟨_, hn, hc⟩

private theorem Trace.firstMatches_eq (trace : Trace) (limit : Nat) :
    trace.firstMatches limit = .ok ((trace.found.map (·.1)).take limit) ∨ ∃ breakdown,
      trace.firstMatches limit = .error breakdown ∧ trace.breakdown = some breakdown ∧ trace.found.length ≤ limit := by
  unfold firstMatches
  split
  · exact .inl rfl
  next hle =>
    unfold Trace.matches
    split
    next breakdown hb => exact .inr ⟨breakdown, rfl, hb, by omega⟩
    · rw [take_of_length_le (by rw [length_map]; omega)]
      exact .inl rfl

/-- Whatever has been found out before and whatever ends it, a search in a parsed tree gives matches of single nodes in
preorder, and runs of siblings by the order of their parents, then of their first nodes. No anchor comes twice, and a
limit keeps what comes first in this order. -/
theorem searched_in_order (grammar : Grammar) (source : Source) (path : String) (config : Config) (pattern : Pattern)
    (record : Record) :
    (trace pattern (Tree.parse grammar source path config) record).InOrder pattern
      (Tree.parse grammar source path config) := by
  obtain ⟨anchors, ha, ho⟩ := exists_anchors (Tree.linked_parse grammar source path config) pattern
  have hf := ho.sublist (sublist_collect ha record [])
  refine ⟨hf, hf.imp SearchOrder.ne, Trace.firstMatches_eq _, fun limit kept hk later hl => ?_⟩
  have hm := pairwise_map.1 (show ((trace pattern (Tree.parse grammar source path config) record).found.map
    (·.1) |>.map (·.anchor)).Pairwise _ by rw [map_map]; exact hf)
  rw [← take_append_drop limit ((trace pattern _ record).found.map (·.1)), pairwise_append] at hm
  exact hm.2.2 kept hk later hl

end Match

end TreeLint
