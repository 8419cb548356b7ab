import TreeLint.Lint
import TreeLint.Proofs.ListedProblems
import TreeLint.Proofs.SourceViews

/-!
# Lines and columns of tokens and spans

Tokens are given their lines and columns one after the other, while those of nodes are looked up in the tables of the
source. Both tell the same.

* `Source.Lined.located_tokensFrom`: the running line and column of each token are those of its start;
* `Tree.spans_located`: so are those of every span that is made from tokens or from nodes.
-/

namespace TreeLint

open List

variable {source : Source}

def Span.Located (source : Source) (span : Span) : Prop :=
  source.lineColumn span.start = (span.line, span.column)

def Token.Located (source : Source) (token : Token) : Prop :=
  source.lineColumn token.start = ((token.line : Int), (token.column : Int))

theorem Piece.Tiled.le {first last : Nat} {pieces : List Piece} (h : Tiled first last pieces) : first ≤ last := by
  induction h with
  | nil => exact Nat.le_refl _
  | cons hlt _ ih => exact Nat.le_trans (Nat.le_of_lt hlt) ih

namespace Source.Lined

variable (h : source.Lined)

include h

/-- Each piece leaves the running place behind it as it would be counted from the start of the source. -/
theorem located_tokensFrom (g : Grammar) {first last line column : Nat} {pieces : List Piece}
    (ht : Piece.Tiled first last pieces) (hl : last ≤ source.text.length)
    (hp : placeAfter 1 1 (source.text.take first) = (line, column)) :
    ∀ token ∈ tokensFrom g source line column pieces, token.Located source ∧ token.start ≤ source.size := by
  induction ht generalizing line column with
  | nil => exact forall_mem_nil _
  | @cons piece pieces last hlt ht ih =>
    have hle := ht.le
    have hs : piece.start ≤ source.text.length := by omega
    rw [tokensFrom, forall_mem_cons]
    have hsz := h.byteAt_le_size hs
    refine ⟨⟨h.lineColumn_eq (h.fallsInto_byteAt hs) hsz hp, hsz⟩, ih hl ?_⟩
    rw [h.glyphs_eq, extract_toArray, extract_eq_take_drop,
      show piece.stop = piece.start + (piece.stop - piece.start) by omega, take_add, placeAfter_append, hp,
      Nat.add_sub_cancel_left]

theorem located_tokenize (g : Grammar) :
    ∀ token ∈ tokenize g source, token.Located source ∧ token.start ≤ source.size := by
  have ht : Piece.Tiled 0 source.glyphs.size (piecesFrom g.scanners source.glyphs 0) :=
    tiled_piecesFrom (Nat.zero_le _)
  exact h.located_tokensFrom g ht (by rw [h.glyphs_eq, size_toArray]) rfl

private theorem lineColumn_lineStart {line : Nat} (hl : line < source.lineStarts.size) :
    source.lineColumn (source.lineStart line) = ((line + 1 : Int), 1) := by
  have hln := h.lines
  rw [← h.size_lineStarts] at hln
  have hs := hln.lt line _ hl (Nat.le_refl _)
  rw [hln.stop] at hs
  obtain ⟨pos, hf⟩ := h.exists_fallsInto (source.lineStart line)
  obtain ⟨index, first, hi, -, hle, hst, hn, hp⟩ := h.exists_line hf (by omega)
  have hfr := Nat.le_trans hle hf.le_length
  have hb := h.byteAt_le hle hf.le_length
  obtain rfl : index = line := by
    refine Nat.le_antisymm (Nat.le_of_not_lt fun hlt => ?_) (Nat.le_of_not_lt fun hlt => ?_)
    · have := hln.lt _ _ hlt (Nat.le_of_lt hi)
      have := hf.le
      omega
    · rcases Nat.lt_or_eq_of_le (Nat.succ_le_of_lt hlt) with hbt | rfl
      · have : source.lineStart (index + 1) < source.lineStart line := hln.lt _ _ hbt (Nat.le_of_lt hl)
        omega
      · exact absurd hn (Nat.lt_irrefl _)
  have hpo := (h.byteAt_le_iff (h.fallsInto_byteAt hfr) hf.le_length).1 (hst ▸ hf.le)
  rw [h.lineColumn_eq hf (by omega) hp, show pos - first = 0 by omega]
  rfl

end Source.Lined

/-! ## Spans -/

namespace Forest

variable {g : Grammar} {tokens : List Token}

private theorem located_problems (h : source.Lined) (hg : g.Tabulated)
    (ht : ∀ token ∈ tokens, token.Located source) (config : Config) :
    ∀ problem ∈ (parse g tokens config).problems, problem.span.Located source := by
  have hget : ∀ i < (meaningful tokens).size, ((meaningful tokens).getD i default).Located source := by
    intro i hi
    rw [Array.getD_eq_getD_getElem?, Array.getElem?_eq_getElem hi]
    exact ht _ (mem_of_mem_filter (getElem_mem _))
  have hgp : ∀ problem ∈ skipProblems g tokens (parse g tokens config), problem.span.Located source := by
    intro problem hp
    obtain ⟨gap, hga, rfl⟩ := mem_map.1 hp
    obtain ⟨hlt, hs, -⟩ := (faithful_parse hg tokens config).gap_blocked gap (mem_of_mem_filter hga)
    rw [size_meaningfulKinds] at hs
    exact hget _ (by omega)
  obtain ⟨ending, hr⟩ := parse_reported hg tokens config
  cases hr with
  | complete hpr => exact hpr ▸ hgp
  | partly hpr _ hl =>
    rw [hpr, forall_mem_append, forall_mem_singleton]
    refine ⟨hgp, ?_⟩
    rw [Span.Located, span_terminalProblem]
    split
    · have hf : 0 < source.lineStarts.size := by rw [h.size_lineStarts]; exact Nat.succ_pos _
      have hz := h.lineColumn_lineStart hf
      rwa [h.lines.zero] at hz
    next hso => exact hget _ (hl (Nat.pos_of_ne_zero (beq_eq_false_iff_ne.1 (Bool.eq_false_iff.2 hso))))

end Forest

private theorem located_lexicalProblems {tokens : List Token} (ht : ∀ token ∈ tokens, token.Located source) :
    ∀ problem ∈ lexicalProblems tokens, problem.span.Located source := by
  intro problem hp
  obtain ⟨token, htk, hs⟩ := mem_filterMap.1 hp
  unfold Token.problem? at hs
  split at hs
  · cases hs
    exact ht token htk
  · cases hs

namespace Suppression

variable {tree : Tree}

private theorem located_spanOfNode (tree : Tree) (id : Nat) : (spanOfNode tree id).Located tree.source :=
  rfl

/-- A comment after code stands for its line, and any other one for a node. -/
private theorem located_target? (h : tree.source.Lined) {comment : Token} (hc : comment.Located tree.source)
    (hs : comment.start ≤ tree.source.size) {later : List Token} {span : Span}
    (hsp : target? tree comment later = some span) : span.Located tree.source := by
  have hl := h.lines
  rw [← h.size_lineStarts] at hl
  obtain ⟨pos, hf⟩ := h.exists_fallsInto comment.start
  obtain ⟨line, first, hln, -, -, -, -, hp⟩ := h.exists_line hf hs
  have hsa := (h.lineColumn_eq hf hs hp).symm.trans hc
  have hn : (comment.line : Int) = (line : Int) + 1 := (Prod.mk.inj hsa).1.symm
  unfold target? at hsp
  rw [hn, hl.span line hln, Option.getD_some] at hsp
  dsimp only at hsp
  split at hsp
  · obtain ⟨token, -, rfl⟩ := Option.map_eq_some_iff.1 hsp
    exact located_spanOfNode ..
  · cases hsp
    exact h.lineColumn_lineStart hln

private theorem located_collectFrom (h : tree.source.Lined) {tokens : List Token}
    (ht : ∀ token ∈ tokens, token.Located tree.source ∧ token.start ≤ tree.source.size) :
    ∀ suppression ∈ collectFrom tree tokens, suppression.span.Located tree.source ∧
      ∃ comment, suppression.comment = some comment ∧ comment.Located tree.source := by
  induction tokens with
  | nil => exact forall_mem_nil _
  | cons token later ih =>
    rw [forall_mem_cons] at ht
    rw [collectFrom, forall_mem_append]
    refine ⟨fun suppression hm => ?_, ih ht.2⟩
    simp only [Option.mem_toList, Option.bind_eq_bind, Option.bind_eq_some_iff, Option.pure_def,
      Option.some.injEq] at hm
    obtain ⟨-, -, globs, -, span, hs, rfl⟩ := hm
    exact ⟨located_target? h ht.1.1 ht.1.2 hs, _, rfl, ht.1.1⟩

end Suppression

private theorem Lint.located_captureSpan? {tree : Tree} {found : Match} {name : String} {span : Span}
    (h : captureSpan? tree found name = some span) : span.Located tree.source := by
  unfold captureSpan? at h
  split at h
  · cases h
  · cases h
  · cases h
    rfl

/-- Line and column are those of the start in every token, in every span of a problem, in every part of a source for
which rules are switched off and the comment that says so, and in every place that a finding points at. -/
theorem Tree.spans_located {description : Grammar.Description} {grammar : Grammar}
    (hbuild : Grammar.build description = .ok grammar)
    (hsource : (∃ bytes, source = .ofBytes bytes) ∨ ∃ text, source = .ofText text) (path : String) (config : Config) :
    (∀ token ∈ tokenize grammar source, source.lineColumn token.start = ((token.line : Int), (token.column : Int))) ∧
    (∀ problem ∈ (Tree.parse grammar source path config).problems, problem.span.Located source) ∧
    (∀ suppression ∈ Suppression.collect (Tree.parse grammar source path config),
      suppression.span.Located source ∧ ∃ comment, suppression.comment = some comment ∧ comment.Located source) ∧
    ∀ rule severity found,
      (Lint.finding rule severity (Tree.parse grammar source path config) found).span.Located source ∧
      ∀ span ∈ (Lint.finding rule severity (Tree.parse grammar source path config) found).secondary,
        span.Located source := by
  have h := Source.lined_of_read hsource
  have ht := h.located_tokenize grammar
  have hl := fun token htk => (ht token htk).1
  have htr : (Tree.parse grammar source path config).tokens.toList = tokenize grammar source := by
    rw [Tree.parse, Tree.ofForest, (Forest.parse_keepsake ..).tokens_eq]
  refine ⟨hl, fun problem hp => ?_, Suppression.located_collectFrom h (htr ▸ ht),
    fun rule severity found => ⟨?_, fun span hs => ?_⟩⟩
  · rcases mem_append.1 (mem_mergeSort.1 hp) with hlx | hpr
    · exact located_lexicalProblems hl problem hlx
    · exact Forest.located_problems h (Grammar.built_of_build hbuild).tabulated hl config problem hpr
  · cases hpri : rule.primary.bind (Lint.captureSpan? (Tree.parse grammar source path config) found) with
    | none =>
      rw [Lint.finding, hpri]
      rfl
    | some span =>
      obtain ⟨name, -, hs⟩ := Option.bind_eq_some_iff.1 hpri
      rw [Lint.finding, hpri]
      exact Lint.located_captureSpan? hs
  · obtain ⟨name, -, hs⟩ := mem_filterMap.1 hs
    exact Lint.located_captureSpan? hs

theorem Tree.spans_located_of_loop : ∃ grammar, Grammar.build Grammar.loop = .ok grammar ∧
    ∀ problem ∈ (Tree.parse grammar (.ofBytes [0xC3, 10, 97, 63]) defaultPath {}).problems,
      problem.span.Located (.ofBytes [0xC3, 10, 97, 63]) := by
  obtain ⟨grammar, hb⟩ := Grammar.exists_build_loop
  exact ⟨grammar, hb, (Tree.spans_located hb (.inl ⟨_, rfl⟩) _ _).2.1⟩

end TreeLint
