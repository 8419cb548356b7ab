import TreeLint.Proofs.Arena
import TreeLint.Proofs.TokenTiling

/-!
# Trees keep the source

The tree of a source is well formed and loses nothing of it, whatever the source looks like: the nodes stand in preorder,
children and parents agree, the leaves are the tokens in order, and the ranges and texts of a node are made up of those
below it (`Tree.Lossless`).
-/

namespace TreeLint

open List

open Layout (Filed Covers CoversAll Laid Consecutive)

namespace Tree

def range (tree : Tree) (id : Nat) : Nat × Nat :=
  ((tree.node id).start, (tree.node id).stop)

def tokenText (tree : Tree) (id : Nat) : Text :=
  match (tree.node id).token with
  | some place => (tree.tokens.getD place default).text
  | none => []

/-- A tree in preorder whose leaves are the tokens and cover the source, and whose nodes are made up of their leaves. -/
structure Lossless (tree : Tree) : Prop where
  preorder : tree.walk 0 = List.range tree.size
  mem_children_iff : ∀ above below, below ∈ (tree.node above).children ↔ (tree.node below).parent = some above
  parent_eq_none_iff : ∀ id < tree.size, (tree.node id).parent = none ↔ id = 0
  leaf_children : ∀ id, (tree.node id).isLeaf → (tree.node id).children = []
  leaves_tokens : (tree.leaves 0).map (fun leaf => (tree.node leaf).token) = (List.range tree.tokens.size).map some
  leaves_ranges : Consecutive 0 tree.source.size ((tree.leaves 0).map tree.range)
  leaves_nonempty : ∀ leaf ∈ tree.leaves 0, (tree.node leaf).start < (tree.node leaf).stop
  children_ranges : ∀ id < tree.size, (tree.node id).children ≠ [] →
    Consecutive (tree.node id).start (tree.node id).stop ((tree.node id).children.map tree.range)
  empty_range : ∀ id < tree.size, tree.leaves id = [] → (tree.node id).start = (tree.node id).stop
  text_eq : ∀ id < tree.size, tree.text id = (tree.leaves id).flatMap tree.tokenText
  root_text : tree.text 0 = tree.source.text

/-! ## Trees over cut texts -/

/-- A tree whose layout covers its tokens, which end at given offsets. -/
structure Spread (tree : Tree) (offset : Nat → Nat) (layout : Layout) : Prop where
  filed : Filed tree none 0 layout
  covers : Covers offset 0 tree.tokens.size layout
  size_eq : tree.size = layout.size

/-- A tree whose layout covers the tokens of a source that was cut at given places. -/
structure Grown (tree : Tree) (cut : Nat → Nat) (layout : Layout) : Prop
    extends Spread tree (fun place => tree.source.byteAt (cut place)) layout where
  coherent : tree.source.Coherent
  cuts : Cuts tree.source tree.tokens.toList cut

variable {tree : Tree} {cut offset : Nat → Nat} {layout : Layout} {id : Nat} {src : Source}

theorem laid_of_cuts {tokens : List Token} (h : Cuts src tokens cut) :
    Laid (fun place => src.byteAt (cut place)) tokens.toArray := by
  intro place hp
  have ht : tokens[place]? = some (tokens.toArray.getD place default) := by
    rw [Array.getD_eq_getD_getElem?, getElem?_toArray]
    rw [size_toArray] at hp
    rw [getElem?_eq_getElem hp, Option.getD_some]
  exact ⟨h.start_eq ht, h.stop_eq ht⟩

theorem spread_parse {g : Grammar} (hg : g.Tabulated) (hs : src.Encoded) (path : String) (cfg : Config) :
    ∃ cut, Cuts src (tokenize g src) cut ∧ Spread (parse g src path cfg) (fun place => src.byteAt (cut place))
      (Layout.root (Forest.parse g (tokenize g src) cfg).tokens src.size
        (Draft.ofForest (Forest.parse g (tokenize g src) cfg))) := by
  obtain ⟨cut, hc, -⟩ := cuts_tokenize hs g
  have ht := (Forest.parse_keepsake g (tokenize g src) cfg).tokens_eq
  have hp := Draft.tokensOfAll_ofForest hg (tokenize g src) cfg
  refine ⟨cut, hc, Layout.filed_ofForest .., ?_, Layout.size_ofForest ..⟩
  rw [show (parse g src path cfg).tokens = _ from ht, ht]
  refine Layout.covers_root (laid_of_cuts hc) ?_ ?_ ?_ ?_
  · rw [hp]
    exact Draft.pairwise_significantPlaces _
  · rw [hp]
    exact fun place hpl => Draft.lt_of_mem_significantPlaces hpl
  · rw [hc.zero]
    exact hs.byteAt_zero
  · rw [size_toArray, hc.length]
    exact hs.byteAt_length

/-- Every tree of a source has grown over cuts of its text. -/
theorem grown_parse {g : Grammar} (hg : g.Tabulated) (hs : src.Coherent) (path : String)
    (cfg : Config) :
    ∃ cut, Grown (parse g src path cfg) cut
      (Layout.root (Forest.parse g (tokenize g src) cfg).tokens src.size
        (Draft.ofForest (Forest.parse g (tokenize g src) cfg))) := by
  obtain ⟨cut, hc, hsp⟩ := spread_parse hg hs.toEncoded path cfg
  refine ⟨cut, hsp, hs, ?_⟩
  rw [show (parse g src path cfg).tokens = _ from (Forest.parse_keepsake g (tokenize g src) cfg).tokens_eq]
  exact hc

theorem Spread.exists_at (h : Spread tree offset layout) (hid : id < tree.size) :
    ∃ found above first last, Filed tree above id found ∧ Covers offset first last found ∧ last ≤ tree.tokens.size ∧
      (id = 0 ∧ above = none ∨ ∃ p, above = some p ∧ id ∈ (tree.node p).children) := by
  have hP : ∀ layout, (∃ first last, Covers offset first last layout ∧ last ≤ tree.tokens.size) →
      ∀ child ∈ layout.children, ∃ first last, Covers offset first last child ∧ last ≤ tree.tokens.size := by
    rintro layout ⟨first, last, hc, hl⟩ child hch
    obtain ⟨start, stop, hch, -, hs⟩ := hc.exists_covers hch
    exact ⟨start, stop, hch, Nat.le_trans hs hl⟩
  rw [h.size_eq] at hid
  obtain ⟨found, above, hf, ⟨first, last, hc, hl⟩, hp⟩ :=
    h.filed.exists_at hP ⟨0, tree.tokens.size, h.covers, Nat.le_refl _⟩ (Nat.zero_le id) (by omega)
  exact ⟨found, above, first, last, hf, hc, hl, hp⟩

theorem Grown.node_of_size_le (hid : tree.size ≤ id) : tree.node id = default := by
  rw [node, Array.getD_eq_getD_getElem?, Array.getElem?_eq_none hid, Option.getD_none]

/-- A leaf lies where its token does and has no children. -/
theorem Spread.leaf_eq (h : Spread tree offset layout) {place : Nat} (ht : (tree.node id).token = some place) :
    place < tree.tokens.size ∧ (tree.node id).children = [] ∧ tree.range id = (offset place, offset (place + 1)) ∧
      (tree.node id).kind = (tree.tokens.getD place default).kind ∧
        (tree.node id).trivia = (tree.tokens.getD place default).trivia := by
  by_cases hid : id < tree.size
  · obtain ⟨found, above, first, last, hf, hc, hl, -⟩ := h.exists_at hid
    rw [range, hf.node_eq] at *
    cases found with
    | node => cases ht
    | leaf token start stop =>
      obtain ⟨rfl, rfl, rfl, rfl⟩ := hc
      cases ht
      exact ⟨hl, rfl, rfl, rfl, rfl⟩
  · rw [Grown.node_of_size_le (by omega)] at ht
    cases ht

theorem Spread.leaf_kind (h : Spread tree offset layout) {place : Nat} (ht : (tree.node id).token = some place) :
    (tree.node id).kind = (tree.tokens.getD place default).kind ∧
      (tree.node id).trivia = (tree.tokens.getD place default).trivia :=
  (h.leaf_eq ht).2.2.2

private theorem leaves_eq {found : Layout} {above : Option Nat} (hf : Filed tree above id found) :
    tree.leaves id = (List.range' id found.size).filter fun below => (tree.node below).isLeaf := by
  rw [leaves, hf.walk_eq]

private theorem consecutive_range' (offset : Nat → Nat) (first count : Nat) :
    Consecutive (offset first) (offset (first + count))
      ((List.range' first count).map fun place => (offset place, offset (place + 1))) := by
  induction count generalizing first with
  | zero => exact .nil
  | succ count ih =>
    have hr := ih (first + 1)
    rw [Nat.add_assoc, Nat.add_comm 1] at hr
    exact .cons hr

private theorem flatMap_text_eq {tokens : Array Token} (h : Cuts src tokens.toList cut) {first last : Nat}
    (hle : first ≤ last) (hl : last ≤ tokens.size) :
    ((List.range' first (last - first)).flatMap fun place => (tokens.getD place default).text) =
      (src.text.drop (cut first)).take (cut last - cut first) := by
  generalize hc : last - first = count
  induction count generalizing first with
  | zero =>
    obtain rfl : first = last := by omega
    rw [Nat.sub_self]
    rfl
  | succ count ih =>
    rw [← Array.length_toList] at hl
    have hlt := h.lt (show first < tokens.toList.length by omega)
    have hm := h.le (show first + 1 ≤ last by omega) hl
    have ht : tokens.toList[first]? = some (tokens.getD first default) := by
      rw [Array.getElem?_toList, Array.getD_eq_getD_getElem?]
      rw [Array.length_toList] at hl
      rw [Array.getElem?_eq_getElem (by omega), Option.getD_some]
    rw [range'_succ, flatMap_cons, h.text_eq ht, ih (by omega) (by omega),
      show cut last - cut first = (cut (first + 1) - cut first) + (cut last - cut (first + 1)) by omega, take_add,
      drop_drop, show cut first + (cut (first + 1) - cut first) = cut (first + 1) by omega]

namespace Grown

variable (h : Grown tree cut layout)

include h

theorem parent_zero : (tree.node 0).parent = none := by
  rw [h.filed.node_eq, Layout.head_parent]

theorem mem_children_iff (above below : Nat) :
    below ∈ (tree.node above).children ↔ (tree.node below).parent = some above := by
  constructor
  · intro hm
    by_cases hid : above < tree.size
    · obtain ⟨found, _, _, _, hf, -⟩ := h.exists_at hid
      rw [hf.node_eq, Layout.head_children] at hm
      exact hf.children.parent_eq hm
    · rw [node_of_size_le (by omega)] at hm
      cases hm
  · intro hpr
    by_cases hid : below < tree.size
    · obtain ⟨found, parent, _, _, hf, -, -, hpl⟩ := h.exists_at hid
      rw [hf.node_eq, Layout.head_parent] at hpr
      subst hpr
      rcases hpl with ⟨-, hn⟩ | ⟨p, hp, hm⟩
      · cases hn
      · cases hp
        exact hm
    · rw [node_of_size_le (by omega)] at hpr
      cases hpr

theorem parent_eq_none_iff (hid : id < tree.size) :
    (tree.node id).parent = none ↔ id = 0 := by
  constructor
  · intro hpr
    obtain ⟨found, parent, _, _, hf, -, -, hpl⟩ := h.exists_at hid
    rw [hf.node_eq, Layout.head_parent] at hpr
    subst hpr
    rcases hpl with ⟨hz, -⟩ | ⟨p, hp, -⟩
    · exact hz
    · cases hp
  · rintro rfl
    exact h.parent_zero

theorem leaves_zero :
    tree.leaves 0 = (List.range' 0 tree.size).filter fun below => (tree.node below).isLeaf := by
  rw [leaves_eq h.filed, h.size_eq]

theorem leaves_ranges :
    Consecutive 0 tree.source.size ((tree.leaves 0).map tree.range) := by
  have hr := consecutive_range' (fun place => tree.source.byteAt (cut place)) 0 tree.tokens.size
  rw [h.leaves_zero, map_filter_isLeaf tree tree.range
    (fun place => (tree.source.byteAt (cut place), tree.source.byteAt (cut (place + 1)))) _
    (fun ht => (h.leaf_eq ht).2.2.1), h.size_eq, h.filed.filterMap_token_eq h.covers, Nat.sub_zero]
  have hl := h.cuts.length
  rw [Array.length_toList] at hl
  rwa [Nat.zero_add, hl, h.coherent.byteAt_length, h.cuts.zero, h.coherent.byteAt_zero] at hr

theorem lt_of_isLeaf (hl : (tree.node id).isLeaf) :
    (tree.node id).start < (tree.node id).stop := by
  obtain ⟨place, ht⟩ := Option.isSome_iff_exists.1 hl
  obtain ⟨hp, -, hr, -⟩ := h.leaf_eq ht
  rw [range, Prod.mk.injEq] at hr
  rw [← Array.length_toList] at hp
  have hle := h.cuts.le hp (Nat.le_refl _)
  rw [h.cuts.length] at hle
  rw [hr.1, hr.2]
  exact h.coherent.byteAt_lt (h.cuts.lt hp) hle

/-- The text of a node is that of the leaves under it. -/
theorem text_eq (hid : id < tree.size) :
    tree.text id = (tree.leaves id).flatMap tree.tokenText := by
  obtain ⟨found, above, first, last, hf, hc, hl, -⟩ := h.exists_at hid
  have ht : (tree.leaves id).map tree.tokenText =
      (List.range' first (last - first)).map fun place => (tree.tokens.getD place default).text := by
    rw [leaves_eq hf, map_filter_isLeaf tree tree.tokenText (fun place => (tree.tokens.getD place default).text) _
      (fun htk => by rw [tokenText, htk]), hf.filterMap_token_eq hc]
  have hct := h.cuts.le hc.le (by rwa [Array.length_toList])
  have he : cut last ≤ cut tree.tokens.toList.length := h.cuts.le (by rwa [Array.length_toList]) (Nat.le_refl _)
  rw [h.cuts.length] at he
  rw [flatMap_def, ht, ← flatMap_def, flatMap_text_eq h.cuts hc.le hl, text, hf.node_eq, hc.head_start, hc.head_stop]
  exact h.coherent.slice_byteAt hct he

theorem leaves_tokens :
    (tree.leaves 0).map (fun leaf => (tree.node leaf).token) = (List.range tree.tokens.size).map some := by
  rw [h.leaves_zero, map_filter_isLeaf tree (fun leaf => (tree.node leaf).token) some _ (fun ht => ht),
    h.size_eq, h.filed.filterMap_token_eq h.covers, Nat.sub_zero, range_eq_range']

private theorem preorder : tree.walk 0 = List.range tree.size := by
  rw [h.filed.walk_eq, h.size_eq, range_eq_range']

theorem children_ranges (hid : id < tree.size) (hc : (tree.node id).children ≠ []) :
    Consecutive (tree.node id).start (tree.node id).stop ((tree.node id).children.map tree.range) := by
  obtain ⟨found, above, first, last, hf, hcv, -⟩ := h.exists_at hid
  rw [hf.node_eq] at hc ⊢
  cases found with
  | leaf => exact (hc rfl).elim
  | node kind start stop children =>
    obtain ⟨rfl, rfl, ha⟩ := hcv
    exact hf.2.consecutive ha

theorem empty_range (hid : id < tree.size) (hl : tree.leaves id = []) :
    (tree.node id).start = (tree.node id).stop := by
  obtain ⟨found, above, first, last, hf, hc, -⟩ := h.exists_at hid
  -- without a leaf below it, the node covers no token
  have hcn := map_filter_isLeaf tree (fun leaf => (tree.node leaf).token) some (List.range' id found.size)
    (fun ht => ht)
  rw [← leaves_eq hf, hl, hf.filterMap_token_eq hc, map_nil] at hcn
  have he : last - first = 0 := by simpa using hcn.symm
  have hle := hc.le
  obtain rfl : first = last := by omega
  rw [hf.node_eq, hc.head_start, hc.head_stop]

private theorem root_text : tree.text 0 = tree.source.text := by
  have hl := h.cuts.length
  have hs := h.coherent.slice_byteAt (Nat.zero_le _) (Nat.le_refl _)
  rw [Array.length_toList] at hl
  rw [text, h.filed.node_eq, h.covers.head_start, h.covers.head_stop, hl, h.cuts.zero, hs, drop_zero,
    Nat.sub_zero, take_length]

private theorem lossless : tree.Lossless where
  preorder := h.preorder
  mem_children_iff := h.mem_children_iff
  parent_eq_none_iff _ hid := h.parent_eq_none_iff hid
  leaf_children id hl := by
    obtain ⟨place, ht⟩ := Option.isSome_iff_exists.1 hl
    exact (h.leaf_eq ht).2.1
  leaves_tokens := h.leaves_tokens
  leaves_ranges := h.leaves_ranges
  leaves_nonempty leaf hl := h.lt_of_isLeaf (mem_filter.1 hl).2
  children_ranges _ hid hc := h.children_ranges hid hc
  empty_range _ hid hlv := h.empty_range hid hlv
  text_eq _ hid := h.text_eq hid
  root_text := h.root_text

end Grown

/-- Parsing any bytes, or any text, gives a well formed tree that keeps all of it. -/
theorem parse_lossless {description : Grammar.Description} {grammar : Grammar}
    (hbuild : Grammar.build description = .ok grammar) {source : Source}
    (hsource : (∃ bytes, source = .ofBytes bytes) ∨ ∃ text, source = .ofText (Text.ofString text)) (path : String)
    (config : Config) :
    (parse grammar source path config).source = source ∧
      (parse grammar source path config).tokens = (tokenize grammar source).toArray ∧
      (parse grammar source path config).Lossless := by
  have hg := (Grammar.built_of_build hbuild).tabulated
  have hc := Source.coherent_of_read hsource
  obtain ⟨cut, hgr⟩ := grown_parse hg hc path config
  exact ⟨rfl, (Forest.parse_keepsake grammar (tokenize grammar source) config).tokens_eq, hgr.lossless⟩

/-- A source of the cyclic grammar with a token it does not know. -/
theorem lossless_of_loop : ∃ grammar, Grammar.build Grammar.loop = .ok grammar ∧
    (parse grammar (.ofText (Text.ofString "a?")) defaultPath {}).Lossless := by
  obtain ⟨grammar, hb⟩ := Grammar.exists_build_loop
  exact ⟨grammar, hb, (parse_lossless hb (.inr ⟨"a?", rfl⟩) _ _).2.2⟩

/-! ## A tree in full -/

/-- Letters in a row, with a sign behind the first, and comments. -/
def letters : Grammar.Description where
  name := "letters"
  productions := [{ name := "S", alternatives := [{ symbols := [.ref "A", .literal "+", .ref "A", .ref "A"] }] }]
  tokens := [{ name := "A", pattern := "a" }, { name := "C", pattern := "1", trivia := true }]
  suppression := { commentKinds := ["C"], directive := "1" }

def letterKinds : List String :=
  ["document", "error", "unparsed", "unknown", "whitespace", "S", "+", "A", "C"]

def letterScanners : List Scanner :=
  [⟨Grammar.literalRule "+", { term := .set { tests := [.code 43] } }⟩,
    ⟨{ name := "A", pattern := "a" }, { term := .set { tests := [.code 97] } }⟩,
    ⟨{ name := "C", pattern := "1", trivia := true }, { term := .set { tests := [.code 49] } }⟩]

def letterSource : Source := .ofText (Text.ofString "a1\n+\naa")

def letterTokens : List Token :=
  [⟨"A", 7, 0, 1, Text.ofString "a", false, 1, 1⟩, ⟨"C", 8, 1, 2, Text.ofString "1", true, 1, 2⟩,
    ⟨"whitespace", 4, 2, 3, Text.ofString "\n", true, 1, 3⟩, ⟨"+", 6, 3, 4, Text.ofString "+", false, 2, 1⟩,
    ⟨"whitespace", 4, 4, 5, Text.ofString "\n", true, 2, 2⟩, ⟨"A", 7, 5, 6, Text.ofString "a", false, 3, 1⟩,
    ⟨"A", 7, 6, 7, Text.ofString "a", false, 3, 2⟩]

def letterTree (grammar : Grammar) : Tree where
  nodes := #[⟨"document", 0, 0, 7, [1], none, none, false⟩, ⟨"S", 5, 0, 7, [2, 3, 4, 5, 6, 7, 8], some 0, none, false⟩,
    ⟨"A", 7, 0, 1, [], some 1, some 0, false⟩, ⟨"C", 8, 1, 2, [], some 1, some 1, true⟩,
    ⟨"whitespace", 4, 2, 3, [], some 1, some 2, true⟩, ⟨"+", 6, 3, 4, [], some 1, some 3, false⟩,
    ⟨"whitespace", 4, 4, 5, [], some 1, some 4, true⟩, ⟨"A", 7, 5, 6, [], some 1, some 5, false⟩,
    ⟨"A", 7, 6, 7, [], some 1, some 6, false⟩]
  grammar
  tokens := letterTokens.toArray
  source := letterSource
  path := defaultPath
  problems := []

private theorem tokenize_letters {grammar : Grammar} (hs : grammar.scanners = letterScanners)
    (hk : grammar.kinds = letterKinds) : tokenize grammar letterSource = letterTokens := by
  have hp : piecesFrom letterScanners letterSource.glyphs 0 =
      [⟨"A", false, 0, 1⟩, ⟨"C", true, 1, 2⟩, ⟨"whitespace", true, 2, 3⟩, ⟨"+", false, 3, 4⟩, ⟨"whitespace", true, 4, 5⟩,
        ⟨"A", false, 5, 6⟩, ⟨"A", false, 6, 7⟩] := by cbv
  rw [tokenize, hs, hp]
  simp only [tokensFrom, Grammar.kindId, hk]
  rfl

/-- The tree of a row on three lines, with a comment behind the first letter. -/
theorem parse_letters : ∃ grammar, Grammar.build letters = .ok grammar ∧ grammar.kinds = letterKinds ∧
    parse grammar letterSource = letterTree grammar := by
  obtain ⟨grammar, hb, hs, hk, hst, hi, htr, ha⟩ : ∃ grammar, Grammar.build letters = .ok grammar ∧
      grammar.scanners = letterScanners ∧ grammar.kinds = letterKinds ∧ grammar.start = "S" ∧
      grammar.isInline "S" = false ∧ grammar.isTransparent "S" = false ∧ grammar.alternatives =
        #[{ lhs := "S", symbols := ["A", "+", "A", "A"].map .terminal, id := 0, rank := 0 }] :=
    ⟨_, rfl, rfl, rfl, rfl, rfl, rfl, rfl⟩
  refine ⟨grammar, hb, hk, ?_⟩
  obtain ⟨hpr, hd⟩ := @Draft.ofForest_of_row grammar letterTokens ["A", "+", "A", "A"]
    (Grammar.built_of_build hb).tabulated {} (by simp [ha, hst]) (by simp [ha]) rfl (hst ▸ hi) (hst ▸ htr)
  have hkp := Forest.parse_keepsake grammar letterTokens {}
  have hp : (lexicalProblems letterTokens ++ []).mergeSort Problem.precedes = [] := mergeSort_nil
  rw [parse, tokenize_letters hs hk, ofForest, hd, hpr, hst, hkp.grammar_eq, hkp.tokens_eq, hp]
  cases grammar
  cases hk
  rfl

end Tree

end TreeLint
