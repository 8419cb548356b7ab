import Mathlib.Data.List.DropRight
import TreeLint.Proofs.Navigation
import TreeLint.Proofs.TokenPlaces

/-!
# Comments and their lines

A comment with the directive stands for its line just if something other than blanks stands before it there, be it code
or another comment.

* `Suppression.target?_eq`: the text before a comment on its line is what follows the last newline of the tokens before;
* `Suppression.fromComment_eq`: a comment with the directive switches rules off where its target is, and nowhere else.
-/

namespace TreeLint

open List

/-- The characters behind the last newline of a text. -/
def Text.lastLine (text : Text) : Text :=
  text.rtakeWhile (!·.is '\n')

def textOf (tokens : List Token) : Text :=
  tokens.flatMap (·.text)

/-- Of some tokens, those that have more than blanks on the line on which the tokens end. -/
def onLastLine : List Token → List Token
  | [] => []
  | token :: later =>
    if (textOf later).any (·.is '\n') || token.text.lastLine.allBlank then onLastLine later
    else token :: onLastLine later

namespace Text

private theorem lastLine_concat (text : Text) (g : Glyph) :
    lastLine (text ++ [g]) = if g.is '\n' then [] else text.lastLine ++ [g] := by
  rw [lastLine, rtakeWhile_concat]
  cases g.is '\n' <;> rfl

private theorem lastLine_append (text more : Text) :
    lastLine (text ++ more) = if more.any (·.is '\n') then more.lastLine else text.lastLine ++ more := by
  induction more using List.reverseRecOn with
  | nil => rw [append_nil, any_nil, if_neg Bool.false_ne_true, append_nil]
  | append_singleton more g ih =>
    rw [← append_assoc, lastLine_concat, lastLine_concat, ih, any_append, any_cons, any_nil]
    cases g.is '\n' <;> cases more.any (·.is '\n') <;> simp

private theorem length_lastLine (text : Text) : (placeAfter 1 1 text).2 = text.lastLine.length + 1 := by
  induction text using List.reverseRecOn with
  | nil => rfl
  | append_singleton text g ih =>
    rw [placeAfter_append, placeAfter, lastLine_concat]
    cases g.is '\n'
    · simp [placeAfter, ih]
    · rfl

/-- The running column tells where the last line begins. -/
private theorem lastLine_eq_drop {text : Text} {line column : Nat} (h : placeAfter 1 1 text = (line, column)) :
    text.lastLine = text.drop (text.length + 1 - column) := by
  have hc := length_lastLine text
  rw [h] at hc
  have hs := suffix_iff_eq_drop.1 (rtakeWhile_suffix (!·.is '\n') text)
  rwa [← lastLine, show text.length - text.lastLine.length = text.length + 1 - column by omega] at hs

end Text

private theorem allBlank_lastLine_iff (tokens : List Token) : (textOf tokens).lastLine.allBlank ↔ onLastLine tokens =
    [] := by
  induction tokens with
  | nil => exact iff_of_true rfl rfl
  | cons token later ih =>
    rw [textOf, flatMap_cons, ← textOf, Text.lastLine_append, onLastLine]
    cases hn : (textOf later).any (·.is '\n') with
    | true => exact ih
    | false =>
      have hw := Text.lastLine_append [] (textOf later)
      rw [hn, if_neg Bool.false_ne_true] at hw
      change (textOf later).lastLine = textOf later at hw
      rw [hw] at ih
      rw [if_neg Bool.false_ne_true, Text.allBlank, all_append, Bool.and_eq_true, ← Text.allBlank, ← Text.allBlank,
        ih, Bool.false_or]
      split <;> simp_all

/-! ## Targets -/

private theorem Cuts.textOf_eq {source : Source} {before later : List Token} {cut : Nat → Nat}
    (h : Cuts source (before ++ later) cut) : textOf before = source.text.take (cut before.length) := by
  induction before using List.reverseRecOn generalizing later with
  | nil => rw [length_nil, h.zero]; rfl
  | append_singleton before token ih =>
    rw [append_assoc] at h
    have ht : (before ++ ([token] ++ later))[before.length]? = some token := by simp
    have hlt : cut before.length < cut (before.length + 1) := h.lt (List.getElem?_eq_some_iff.1 ht).1
    rw [textOf, flatMap_append, ← textOf, ih h, flatMap_singleton, h.text_eq ht, length_append,
      length_singleton, ← take_add, Nat.add_sub_cancel' (Nat.le_of_lt hlt)]

namespace Suppression

variable {tree : Tree} {comment : Token} {before later : List Token} {cut : Nat → Nat}

/-- A comment stands for its line if something stands before it there, and else for what comes next. -/
theorem target?_eq (h : tree.source.Lined) (hs : tree.source.Coherent)
    (hc : Cuts tree.source (before ++ comment :: later) cut) (hcm : comment.Located tree.source) :
    ∃ start stop, tree.source.lineSpan? comment.line = some (start, stop) ∧ start ≤ comment.start ∧
      (comment.start : Int) ≤ stop ∧
      target? tree comment later = if onLastLine before = [] then
          (nextItem? later).map fun token => spanOfNode tree (outermostAt tree token.start)
        else some (.between start stop comment.line 1 tree.path) := by
  have ht : (before ++ comment :: later)[before.length]? = some comment := by simp
  have hp := (List.getElem?_eq_some_iff.1 ht).1
  have hpo : cut before.length ≤ tree.source.text.length :=
    hc.length ▸ hc.le (Nat.le_of_lt hp) (Nat.le_refl _)
  have hst := hc.start_eq ht
  have hl := h.lines
  rw [← h.size_lineStarts] at hl
  obtain ⟨line, first, hln, -, hf, hli, hn, hr⟩ :=
    h.exists_line (h.fallsInto_byteAt hpo) (h.byteAt_le_size hpo)
  have hsa := h.lineColumn_eq (h.fallsInto_byteAt hpo) (h.byteAt_le_size hpo) hr
  rw [← hst, hcm] at hsa
  have hnm : (comment.line : Int) = (line : Int) + 1 := (Prod.mk.inj hsa).1
  have hsp := hl.span line hln
  have hle := h.byteAt_le hf hpo
  -- the characters since the start of the line are those behind the last newline
  have htx : tree.source.slice (tree.source.lineStart line) comment.start = (textOf before).lastLine := by
    rw [hli, hst, hs.slice_byteAt hf hpo, hc.textOf_eq, Text.lastLine_eq_drop hr,
      length_take, Nat.min_eq_left hpo, ← drop_take]
    congr 1
    omega
  refine ⟨_, _, by rw [hnm]; exact hsp, by omega, by omega, ?_⟩
  unfold target?
  rw [hnm, hsp, Option.getD_some]
  dsimp only
  rw [htx]
  simp only [allBlank_lastLine_iff]

/-! ## What comes next -/

/-- A node that may be entered from below at a byte: it starts there, and is neither the document nor a list of several
items. -/
def Enterable (tree : Tree) (offset id : Nat) : Prop :=
  (tree.node id).start = offset ∧ (tree.node id).kind ≠ Grammar.documentKind ∧ isLongList tree id = false

/-- The outermost node that begins with the token at a byte: the leaf of the token, or the last of the nodes above it
that may be entered one after the other. -/
def Outermost (tree : Tree) (offset id : Nat) : Prop :=
  ∃ leaf < tree.size, (tree.node leaf).isLeaf ∧ (tree.node leaf).start = offset ∧ tree.Above id leaf ∧
    (∀ other, tree.Above id other → tree.Below other leaf → Enterable tree offset other) ∧
    ∀ parent, (tree.node id).parent = some parent → ¬ Enterable tree offset parent

/-- Climbing ends at the last of the nodes above that may be entered one after the other. -/
private theorem climb_spec {layout : Layout} (h : tree.Grown cut layout) {offset : Nat} (id : Nat)
    (hs : (tree.node id).start = offset) :
    tree.Above (climb tree id (tree.ancestors id)) id ∧
    (∀ other, tree.Above (climb tree id (tree.ancestors id)) other → tree.Below other id →
      Enterable tree offset other) ∧
    ∀ parent, (tree.node (climb tree id (tree.ancestors id))).parent = some parent →
      ¬ Enterable tree offset parent := by
  induction id using Nat.strongRecOn with
  | ind id ih =>
    have hself : ∀ other, tree.Above id other → tree.Below other id → Enterable tree offset other :=
      fun other ha hb => absurd (h.lt_of_below (hb.trans_left ha)) (Nat.lt_irrefl _)
    cases hp : (tree.node id).parent with
    | none =>
      rw [Tree.ancestors_eq_nil hp]
      refine ⟨.refl, hself, fun parent hpa => ?_⟩
      rw [climb, hp] at hpa
      cases hpa
    | some parent =>
      rw [Tree.ancestors_eq_cons h.parent_lt hp, climb, hs]
      split
      next hc =>
        refine ⟨.refl, hself, fun other ho he => ?_⟩
        rw [hp, Option.some.injEq] at ho
        subst ho
        obtain ⟨hst, hk, hl⟩ := he
        simp [hst, hk, hl] at hc
      next hc =>
        simp only [Bool.or_eq_true, bne_iff_ne, beq_iff_eq, not_or, Bool.not_eq_true, not_not] at hc
        obtain ⟨ha, he, hn⟩ := ih parent (h.parent_lt hp) hc.1.1
        refine ⟨ha.tail ((h.mem_children_iff _ _).2 hp), fun other hot hb => ?_, hn⟩
        rw [← h.mem_ancestors_iff, Tree.ancestors_eq_cons h.parent_lt hp, mem_cons] at hb
        rcases hb with rfl | hb
        · exact ⟨hc.1.1, hc.1.2, hc.2⟩
        · exact he other hot (h.mem_ancestors_iff.1 hb)

private theorem outermost_outermostAt {layout : Layout} (h : tree.Grown cut layout) {token : Token}
    (ht : token ∈ tree.tokens.toList) : Outermost tree token.start (outermostAt tree token.start) := by
  obtain ⟨hs, hl, -, hst⟩ := h.nodeAt_token ht
  exact ⟨_, hs, hl, hst, climb_spec h _ hst⟩

namespace Outermost

variable {layout : Layout} {offset id other : Nat}

theorem unique (h : tree.Grown cut layout) (ho : Outermost tree offset id) (ho' : Outermost tree offset other) :
    id = other := by
  obtain ⟨leaf, hs, hl, hst, ha, he, hn⟩ := ho
  obtain ⟨leaf', hs', hl', hst', ha', he', hn'⟩ := ho'
  obtain rfl : leaf = leaf' :=
    h.eq_of_isLeaf hs hs' hl hl' ⟨Nat.le_of_eq hst, hst ▸ h.lt_of_isLeaf hl⟩
      ⟨Nat.le_of_eq hst', hst' ▸ h.lt_of_isLeaf hl'⟩
  -- the node above the lower one of the two would have been entered
  have hne : ∀ {first second}, tree.Above second leaf → tree.Below first second →
      (∀ other, tree.Above first other → tree.Below other leaf → Enterable tree offset other) →
      ¬ ∀ parent, (tree.node second).parent = some parent → ¬ Enterable tree offset parent := by
    intro first second hsl hb hf hsc
    obtain ⟨parent, hp, hc⟩ := Relation.TransGen.tail'_iff.1 hb
    exact hsc parent ((h.mem_children_iff _ _).1 hc) (hf parent hp (.head' hc hsl))
  rcases h.above_or_below ha ha' with hab | hab
  · rcases Relation.reflTransGen_iff_eq_or_transGen.1 hab with heq | hb
    · exact heq.symm
    · exact absurd hn' (hne ha' hb he)
  · exact absurd hn (hne ha hab he')

private theorem isLeaf_or_enterable (ho : Outermost tree offset id) :
    (tree.node id).isLeaf ∧ (tree.node id).start = offset ∨ Enterable tree offset id := by
  obtain ⟨leaf, -, hl, hst, ha, he, -⟩ := ho
  rcases Relation.reflTransGen_iff_eq_or_transGen.1 ha with rfl | hb
  · exact .inl ⟨hl, hst⟩
  · exact .inr (he id .refl hb)

theorem start_eq (ho : Outermost tree offset id) : (tree.node id).start = offset :=
  ho.isLeaf_or_enterable.elim And.right And.left

private theorem isLongList_eq_false (h : tree.Grown cut layout) (ho : Outermost tree offset id) :
    isLongList tree id = false := by
  rcases ho.isLeaf_or_enterable with ⟨hl, -⟩ | he
  · rw [isLongList, Tree.significantChildren, h.children_of_isLeaf hl]
    rfl
  · exact he.2.2

end Outermost

/-- What comes next after a comment begins with the token, is no long list, and ends before the later items of the long
lists around the token. -/
theorem outermostAt_spec {layout : Layout} (h : tree.Grown cut layout) {token : Token}
    (ht : token ∈ tree.tokens.toList) :
    outermostAt tree token.start < tree.size ∧ (tree.node (outermostAt tree token.start)).start = token.start ∧
    token.start < (tree.node (outermostAt tree token.start)).stop ∧
    isLongList tree (outermostAt tree token.start) = false ∧
    ∀ list, isLongList tree list → (tree.node list).start ≤ token.start →
      ∀ other ∈ (tree.node list).children, token.start < (tree.node other).start →
        (tree.node (outermostAt tree token.start)).stop ≤ (tree.node other).start := by
  have ho := outermost_outermostAt h ht
  have hsh := ho.isLongList_eq_false h
  obtain ⟨leaf, hs, hl, hst, ha, he, -⟩ := id ho
  have hh : tree.Holds token.start leaf := ⟨Nat.le_of_eq hst, hst ▸ h.lt_of_isLeaf hl⟩
  have hot := h.lt_size_of_above ha hs
  refine ⟨hot, ho.start_eq, Nat.lt_of_lt_of_le hh.2 (h.range_of_above ha hs).2, hsh, ?_⟩
  intro list hli hb other hoc haf
  have hi := (h.children_bounds (h.lt_size_of_children hoc)).1 other hoc
  have ho' := h.start_le_stop (h.lt_size_of_mem_children hoc).1
  -- the list holds the start of the token, so it lies above the leaf, and then above what climbing reached
  have hla := h.above_of_holds (h.children_of_isLeaf hl) hs hh (h.lt_size_of_children hoc) ⟨hb, by omega⟩
  rcases h.above_or_below ha hla with hal | hbl
  · exfalso
    rcases Relation.reflTransGen_iff_eq_or_transGen.1 hla with rfl | hbl
    · rw [h.children_of_isLeaf hl] at hoc
      cases hoc
    · rw [(he list hal hbl).2.2] at hli
      cases hli
  · obtain ⟨item, hit, hr⟩ := Relation.TransGen.head'_iff.1 hbl
    have hrn := h.range_of_above hr hot
    have hse := ho.start_eq
    rcases h.siblings_apart hit hoc (fun heq => by subst heq; omega) with hle | hle <;> omega

/-! ## What a comment switches off -/

/-- The place of a comment, as it is kept with what the comment switches off. -/
def placeOf (tree : Tree) (comment : Token) : Span :=
  .between comment.start comment.stop comment.line comment.column tree.path

/-- What one comment of a source switches off. -/
def fromComment (tree : Tree) (comment : Token) : List Suppression :=
  (collect tree).filter fun suppression => suppression.comment == some (placeOf tree comment)

private theorem exists_collectFrom_append (tree : Tree) (before later : List Token) :
    ∃ front, collectFrom tree (before ++ later) = front ++ collectFrom tree later ∧
      ∀ suppression ∈ front, ∃ token ∈ before, suppression.comment = some (placeOf tree token) := by
  induction before with
  | nil => exact ⟨[], rfl, forall_mem_nil _⟩
  | cons token before ih =>
    obtain ⟨front, hf, hc⟩ := ih
    rw [cons_append, collectFrom, hf, ← append_assoc]
    refine ⟨_, rfl, forall_mem_append.2 ⟨fun suppression hm => ⟨token, mem_cons_self, ?_⟩,
      fun suppression hm => ?_⟩⟩
    · simp only [Option.mem_toList, Option.bind_eq_bind, Option.bind_eq_some_iff, Option.pure_def,
        Option.some.injEq] at hm
      obtain ⟨-, -, globs, -, span, -, rfl⟩ := hm
      rfl
    · obtain ⟨other, ho, hcm⟩ := hc suppression hm
      exact ⟨other, mem_cons_of_mem _ ho, hcm⟩

theorem fromComment_eq {globs : List Text} (ht : tree.tokens.toList = before ++ comment :: later)
    (ho : Token.InOrder tree.tokens.toList) (hc : tree.grammar.isComment comment.kind)
    (hd : directive? tree.grammar comment.text = some globs) :
    fromComment tree comment = (target? tree comment later).toList.map fun span =>
      { span, globs, comment := some (placeOf tree comment) } := by
  obtain ⟨front, hf, he⟩ := exists_collectFrom_append tree before (comment :: later)
  obtain ⟨back, hb, hl⟩ := exists_collectFrom_append tree later []
  rw [ht] at ho
  obtain ⟨-, ha, hbf⟩ := pairwise_append.1 ho.apart
  have hp := fun token htk => ho.proper token htk
  -- the entries of the other comments tell another place
  have hot : ∀ {suppression : Suppression} {token}, suppression.comment = some (placeOf tree token) →
      token.start ≠ comment.start → ¬(suppression.comment == some (placeOf tree comment)) = true := by
    intro suppression token hpl hne heq
    rw [hpl, beq_iff_eq, Option.some.injEq] at heq
    exact hne (Int.ofNat.inj (congrArg Span.start heq))
  rw [append_nil, collectFrom, append_nil] at hb
  rw [fromComment, collect, ht, hf, filter_append, filter_eq_nil_iff.2, nil_append, collectFrom,
    hb, filter_append, @filter_eq_nil_iff _ _ back |>.2]
  · simp only [hc, hd, guard_true]
    cases target? tree comment later with
    | none => rfl
    | some span => simp [placeOf]
  · intro suppression hm
    obtain ⟨token, htk, hpl⟩ := hl suppression hm
    have := (pairwise_cons.1 ha).1 token htk
    have := hp comment (by simp)
    exact hot hpl (by omega)
  · intro suppression hm
    obtain ⟨token, htk, hpl⟩ := he suppression hm
    have := hbf token htk comment mem_cons_self
    have := hp token (by simp [htk])
    exact hot hpl (by omega)

variable {description : Grammar.Description} {grammar : Grammar} {source : Source} {path : String} {config : Config}
  {globs : List Text}

/-- What a comment of a parsed source stands for. -/
theorem exists_fromComment (hb : Grammar.build description = .ok grammar)
    (hs : (∃ bytes, source = .ofBytes bytes) ∨ ∃ text, source = .ofText (Text.ofString text))
    (ht : Tree.parse grammar source path config = tree) (htk : tokenize grammar source = before ++ comment :: later)
    (hc : grammar.isComment comment.kind) (hd : directive? grammar comment.text = some globs) :
    ∃ cut layout start stop, tree.Grown cut layout ∧ tree.tokens.toList = before ++ comment :: later ∧
      source.lineSpan? comment.line = some (start, stop) ∧ start ≤ comment.start ∧ (comment.start : Int) ≤ stop ∧
      fromComment tree comment = (if onLastLine before = [] then (nextItem? later).map fun token =>
          spanOfNode tree (outermostAt tree token.start)
        else some (.between start stop comment.line 1 path)).toList.map fun span =>
          { span, globs, comment := some (placeOf tree comment) } := by
  have hch := Source.coherent_of_read hs
  have hl := Source.lined_of_read (hs.imp_right fun htx => ⟨_, htx.choose_spec⟩)
  obtain ⟨cut, hg⟩ := Tree.grown_parse (Grammar.built_of_build hb).tabulated hch path config
  have hk := Forest.parse_keepsake grammar (tokenize grammar source) config
  have hgr : tree.grammar = grammar := ht ▸ hk.grammar_eq
  have ha : tree.tokens.toList = before ++ comment :: later := by
    rw [← ht, Tree.parse, Tree.ofForest, hk.tokens_eq, htk]
  have hp : tree.path = path := by rw [← ht]; rfl
  have hr : tree.source = source := by rw [← ht]; rfl
  rw [ht] at hg
  rw [← hr] at hch hl ⊢
  obtain ⟨start, stop, hsp, hst, hsto, htr⟩ := target?_eq hl hch (ha ▸ hg.cuts)
    (hl.located_tokenize grammar comment (by rw [hr, htk]; simp)).1
  refine ⟨cut, _, start, stop, hg, ha, hsp, hst, hsto, ?_⟩
  rw [fromComment_eq ha (hg.cuts.inOrder hch) (hgr ▸ hc) (hgr ▸ hd), htr, hp]

/-- A list of signs between which ones are comments with the directive. -/
def remarks : Grammar.Description where
  name := "remarks"
  productions := [{ name := "S", alternatives := [{ symbols := [.group .star [.literal "+"]] }] }]
  tokens := [{ name := "C", pattern := "1", trivia := true }]
  suppression := { commentKinds := ["C"], directive := "1" }

def remarksScanners : List Scanner :=
  [⟨Grammar.literalRule "+", { term := .set { tests := [.code 43] } }⟩,
    ⟨{ name := "C", pattern := "1", trivia := true }, { term := .set { tests := [.code 49] } }⟩]

theorem exists_build_remarks : ∃ grammar, Grammar.build remarks = .ok grammar ∧ grammar.scanners = remarksScanners ∧
    grammar.isComment "C" ∧ directive? grammar [.scalar '1'] = some [] := by
  have hm : ({ term := .set { tests := [.code 49] } } : Regex).matchAt #[.scalar '1'] 0 = some { position := 1 } := by
    cbv
  refine ⟨_, rfl, rfl, rfl, ?_⟩
  rw [directive?, Regex.search, Regex.searchFrom]
  exact hm ▸ rfl

end Suppression

end TreeLint
