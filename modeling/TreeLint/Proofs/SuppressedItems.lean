import TreeLint.Proofs.CommentLines

/-!
# Comments before the items of a list

A comment on a line of its own stands for one item: the node does not spread over the next items of a list, as long as
the repetition stands in the production of the list itself. Where it stands in an inline production that is put into
the list, it is overlooked.
-/

namespace TreeLint

namespace Suppression

/-- A symbol refers to a name, maybe inside groups. -/
inductive Refers (name : String) : Grammar.Symbol → Prop
  | ref : Refers name (.ref name)
  | group {quantifier : Grammar.Quantifier} {symbols : List Grammar.Symbol} {symbol : Grammar.Symbol} :
      symbol ∈ symbols → Refers name symbol → Refers name (.group quantifier symbols)

/-- A production holds a repeated group once the inline productions that it refers to are put in. -/
inductive RepeatsInside (grammar : Grammar) : String → Prop
  | here {kind : String} : repeats grammar kind → RepeatsInside grammar kind
  | inline {kind name : String} {production : Grammar.Production} {alternative : Grammar.Alternative}
      {symbol : Grammar.Symbol} : grammar.production? kind = some production → alternative ∈ production.alternatives →
      symbol ∈ alternative.symbols → Refers name symbol → grammar.isInline name → RepeatsInside grammar name →
      RepeatsInside grammar kind

variable {grammar : Grammar}

private theorem repeatsInside_iff (hi : ∀ name, grammar.isInline name → repeats grammar name = false) (kind : String) :
    RepeatsInside grammar kind ↔ repeats grammar kind := by
  refine ⟨fun h => ?_, .here⟩
  induction h with
  | here h => exact h
  | inline _ _ _ _ hn _ ih => exact absurd ih (Bool.eq_false_iff.1 (hi _ hn))

private theorem covers_eq_false_of_le {tree : Tree} {id : Nat} {globs : List Text} {comment : Option Span}
    (hid : (tree.node id).start < (tree.node id).stop) {span : Span} (hs : span.start < span.stop)
    (hle : ((tree.node id).stop : Int) ≤ span.start) (rule : String) :
    covers { span := spanOfNode tree id, globs, comment } rule span = false := by
  have hst : (spanOfNode tree id).start = (tree.node id).start := rfl
  have hsto : (spanOfNode tree id).stop = (tree.node id).stop := Int.max_eq_right (by omega)
  have ha : (spanOfNode tree id).intersects span = false := by
    rw [Span.intersects, hst, hsto, if_neg (by simp; omega), if_neg (by simp; omega)]
    simp
    omega
  rw [covers, ha, Bool.and_false]

/-- A comment with nothing before it on its line stands for a node that begins with the next token that is neither
trivia nor blank, and that is no list of several items. Of the lists around the token, the next items are left alone.
Lists are nodes whose productions hold a repeated group, and if no inline production holds one, also those into which
one would be put. -/
theorem own_line_covers_one_item {description : Grammar.Description} (hbuild : Grammar.build description = .ok grammar)
    {source : Source} (hsource : (∃ bytes, source = .ofBytes bytes) ∨ ∃ text, source = .ofText (Text.ofString text))
    {path : String} {config : Config} {tree : Tree} (htree : Tree.parse grammar source path config = tree)
    {before later : List Token} {comment token : Token} {globs : List Text}
    (htokens : tokenize grammar source = before ++ comment :: later) (hcomment : grammar.isComment comment.kind)
    (hdirective : directive? grammar comment.text = some globs) (hline : onLastLine before = [])
    (hnext : nextItem? later = some token) :
    (∃ id < tree.size, fromComment tree comment =
        [{ span := spanOfNode tree id, globs, comment := some (placeOf tree comment) }] ∧
      (tree.node id).start = token.start ∧
      ¬(1 < (tree.significantChildren id).length ∧ repeats grammar (tree.node id).kind)) ∧
    (∀ list, 1 < (tree.significantChildren list).length → repeats grammar (tree.node list).kind →
      (tree.node list).start ≤ token.start → ∀ item ∈ (tree.node list).children, token.start < (tree.node item).start →
        ∀ rule span, ((tree.node item).start : Int) ≤ span.start → span.start < span.stop →
          ∀ suppression ∈ fromComment tree comment, suppression.covers rule span = false) ∧
    ((∀ name, grammar.isInline name → repeats grammar name = false) →
      ∀ kind, RepeatsInside grammar kind ↔ repeats grammar kind) := by
  obtain ⟨cut, layout, start, stop, hg, hall, -, -, -, hf⟩ :=
    exists_fromComment hbuild hsource htree htokens hcomment hdirective
  have ht : token ∈ tree.tokens.toList := by
    rw [hall]
    simp [List.mem_of_find?_eq_some hnext]
  have hgr : tree.grammar = grammar := htree ▸ (Forest.parse_keepsake ..).grammar_eq
  obtain ⟨hs, hfr, hl, hsh, hls⟩ := outermostAt_spec hg ht
  have hln : ∀ {id}, isLongList tree id ↔
      1 < (tree.significantChildren id).length ∧ repeats grammar (tree.node id).kind := by
    intro id
    rw [isLongList, Bool.and_eq_true, decide_eq_true_eq, hgr]
  rw [if_pos hline, hnext] at hf
  refine ⟨⟨_, hs, hf, hfr, hln.not.1 (Bool.eq_false_iff.1 hsh)⟩, ?_, repeatsInside_iff⟩
  intro list hm hr hst item hi ha rule span hsp hp suppression hmm
  rw [hf, Option.map_some, Option.toList_some, List.map_singleton, List.mem_singleton] at hmm
  subst hmm
  have hsto := hls list (hln.2 ⟨hm, hr⟩) hst item hi ha
  exact covers_eq_false_of_le (by omega) hp (by omega) rule

/-- The first sign of a list, behind a comment. -/
theorem own_line_covers_of_signs : ∃ grammar tree comment later token, Grammar.build remarks = .ok grammar ∧
    Tree.parse grammar (.ofText (Text.ofString "1++")) Tree.defaultPath {} = tree ∧
    tokenize grammar (.ofText (Text.ofString "1++")) = comment :: later ∧ nextItem? later = some token ∧
    ∃ id < tree.size, fromComment tree comment =
        [{ span := spanOfNode tree id, comment := some (placeOf tree comment) }] ∧
      (tree.node id).start = token.start ∧
      ¬(1 < (tree.significantChildren id).length ∧ repeats grammar (tree.node id).kind) := by
  obtain ⟨grammar, hb, hs, hc, hd⟩ := exists_build_remarks
  have hp : piecesFrom remarksScanners (Source.ofText (Text.ofString "1++")).glyphs 0 =
      [⟨"C", true, 0, 1⟩, ⟨"+", false, 1, 2⟩, ⟨"+", false, 2, 3⟩] := by cbv
  obtain ⟨comment, later, token, ht, hk, htx, hn⟩ : ∃ comment later token,
      tokenize grammar (.ofText (Text.ofString "1++")) = [] ++ comment :: later ∧ comment.kind = "C" ∧
        comment.text = [.scalar '1'] ∧ nextItem? later = some token := by
    rw [tokenize, hs, hp]
    exact ⟨_, _, _, rfl, rfl, rfl, rfl⟩
  exact ⟨grammar, _, comment, later, token, hb, rfl, ht, hn, (own_line_covers_one_item hb
    (.inr ⟨_, rfl⟩) rfl ht (hk ▸ hc) (htx ▸ hd) rfl hn).1⟩

end Suppression

end TreeLint
