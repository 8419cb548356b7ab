import TreeLint.Proofs.Stripping

/-!
# Trivia does not matter

A parse sees the kinds of the significant tokens and nothing else. Two lists of tokens with the same sequence of
significant kinds have the same parse, and the same tree but for the leaves without meaning.

* `Forest.alike_parse`: the forests tell the same about the significant tokens;
* `Tree.outline`: a tree of kinds without trivia, where tokens are known by their positions among the significant ones;
* `Tree.outline_node`: what the outline of a node is, by its significant children;
* `Tree.parse_ignores_trivia`: the trees of the forests have the same outline.
-/

namespace TreeLint

open List

/-! ## Forests -/

/-- What a problem tells apart from the text. -/
def Problem.shape (problem : Problem) : Code × List String × Bool :=
  (problem.code, problem.expected, problem.terminal)

namespace Forest

/-- Two forests that tell the same about the significant tokens. -/
structure Alike (forest other : Forest) : Prop where
  parsed_eq : other.parsed = forest.parsed
  root?_eq : other.root? = forest.root?
  unparsedFrom_eq : other.unparsedFrom = forest.unparsedFrom
  recoveries_eq : other.recoveries = forest.recoveries
  children_eq : ∀ name start stop, other.children name start stop = forest.children name start stop
  shapes_eq : other.problems.map (·.shape) = forest.problems.map (·.shape)

variable {grammar : Grammar} {tokens others : List Token}

private theorem shape_terminalProblem {first second : Array Token} (h : first.size = second.size) (grammar : Grammar)
    (chart : Chart) (unparsedFrom : Nat) :
    (terminalProblem grammar first chart unparsedFrom).shape =
      (terminalProblem grammar second chart unparsedFrom).shape := by
  unfold terminalProblem
  cases chart.stopped with
  | none =>
    rw [h]
    rfl
  | some pos => rfl

private theorem shapes_gapProblems (first second : Array Token) (grammar : Grammar) (chart : Chart)
    (gaps : List Chart.Gap) :
    (gaps.map (gapProblem grammar first chart)).map (·.shape) =
      (gaps.map (gapProblem grammar second chart)).map (·.shape) := by
  rw [map_map, map_map]
  rfl

/-- How a parse comes out depends on the kinds of the significant tokens only. -/
private theorem outcome_congr {forest other : Forest} (h : Outcome grammar tokens forest)
    (ho : Outcome grammar others other) (hc : other.chart = forest.chart)
    (hs : (meaningful others).size = (meaningful tokens).size) :
    other.parsed = forest.parsed ∧ other.unparsedFrom = forest.unparsedFrom ∧
      other.problems.map (·.shape) = forest.problems.map (·.shape) := by
  cases h with
  | complete hst ha hp hu hpr =>
    cases ho with
    | complete _ _ hp' hu' hpr' =>
      refine ⟨by rw [hp, hp', hs], hu'.trans hu.symm, ?_⟩
      rw [hpr, hpr', hc]
      exact shapes_gapProblems ..
    | partly hn =>
      rw [hc, hs] at hn
      exact absurd ⟨hst, ha⟩ hn
  | partly hn hp hu hpr =>
    cases ho with
    | complete hst ha =>
      rw [hc] at hst
      rw [hc, hs] at ha
      exact absurd ⟨hst, ha⟩ hn
    | partly _ hp' hu' hpr' =>
      have hsto : other.parsed = forest.parsed := by rw [hp, hp', hc, hs]
      refine ⟨hsto, by rw [hu, hu', hsto, hs], ?_⟩
      rw [hpr, hpr', hc, hsto, map_append, map_append, map_singleton,
        map_singleton, shapes_gapProblems (meaningful others) (meaningful tokens),
        shape_terminalProblem hs]

theorem alike_parse (hk : meaningfulKinds others = meaningfulKinds tokens) (grammar : Grammar) (cfg : Config) :
    Alike (parse grammar tokens cfg) (parse grammar others cfg) := by
  have hkp := parse_keepsake grammar tokens cfg
  have hk' := parse_keepsake grammar others cfg
  have ho := parse_outcome grammar tokens cfg
  have ho' := parse_outcome grammar others cfg
  generalize parse grammar tokens cfg = forest at *
  generalize parse grammar others cfg = other at *
  have hc : other.chart = forest.chart := by rw [hkp.chart_eq, hk'.chart_eq, hk]
  have hs : (meaningful others).size = (meaningful tokens).size := by
    rw [← size_meaningfulKinds, ← size_meaningfulKinds, hk]
  have hg : other.grammar = forest.grammar := hk'.grammar_eq.trans hkp.grammar_eq.symm
  obtain ⟨hp, hu, hsh⟩ := outcome_congr ho ho' hc hs
  have hm : other.memo = forest.memo := by rw [hkp.memo_eq, hk'.memo_eq, hc, hp]
  constructor
  case parsed_eq => exact hp
  case root?_eq => rw [root?, root?, hp, hm, hg]
  case unparsedFrom_eq => exact hu
  case recoveries_eq => rw [recoveries, recoveries, hp, hm, hg]
  case children_eq =>
    intro name start stop
    rw [children, children, emptyChildren, emptyChildren, hm, hg]
  case shapes_eq => exact hsh

end Forest

/-! ## Outlines -/

/-- A tree of kinds. Its tokens are known by their positions among the significant ones. -/
inductive Outline where
  | leaf (kind : String) (position : Nat)
  | node (kind : String) (children : List Outline)

def positionOf (tokens : Array Token) (place : Nat) : Nat :=
  (List.range place).countP (meaningfulAt tokens)

def Outline.ofToken (tokens : Array Token) (place : Nat) : Outline :=
  .leaf (tokens.getD place default).kind (positionOf tokens place)

namespace Draft

mutual

def outline (tokens : Array Token) : Draft → Outline
  | .leaf token => .ofToken tokens token
  | .node kind children => .node kind (outlineOfAll tokens children)

def outlineOfAll (tokens : Array Token) : List Draft → List Outline
  | [] => []
  | child :: children => outline tokens child :: outlineOfAll tokens children

end

theorem outlineOfAll_eq_map (tokens : Array Token) (drafts : List Draft) :
    outlineOfAll tokens drafts = drafts.map (outline tokens) := by
  induction drafts with
  | nil => rfl
  | cons draft drafts ih => rw [outlineOfAll, ih, map_cons]

end Draft

namespace Tree

/-- The outline of a node without the trivia below it, at most so many levels. -/
def outlineLevels (tree : Tree) : Nat → Nat → Outline
  | 0, id => .node (tree.node id).kind []
  | levels + 1, id =>
    match (tree.node id).token with
    | some place => .leaf (tree.node id).kind (positionOf tree.tokens place)
    | none => .node (tree.node id).kind ((tree.significantChildren id).map (tree.outlineLevels levels))

def outline (tree : Tree) (id : Nat) : Outline :=
  tree.outlineLevels (tree.size + 1) id

end Tree

namespace Layout

variable {tree : Tree} {parent : Option Nat} {id : Nat} {layout : Layout}

private theorem size_le_sizeOfAll {layouts : List Layout} (h : layout ∈ layouts) : layout.size ≤ sizeOfAll layouts := by
  induction layouts with
  | nil => cases h
  | cons first layouts ih =>
    rw [sizeOfAll]
    rcases mem_cons.1 h with rfl | h
    · omega
    · have := ih h
      omega

private theorem Filed.outlineLevels_eq (h : Filed tree parent id layout) {levels : Nat} (hl : layout.size ≤ levels) :
    tree.outlineLevels levels id = (layout.strip tree.tokens).outline tree.tokens := by
  induction layout using childrenInduction generalizing parent id levels with
  | step layout ih =>
    rw [size_eq] at hl
    cases levels with
    | zero => omega
    | succ levels =>
      have hc : (tree.significantChildren id).map (tree.outlineLevels levels) =
          (layout.strip tree.tokens).children.map (Draft.outline tree.tokens) := by
        refine h.map_significantChildren fun child hch _ _ hf => ih child hch hf ?_
        have := size_le_sizeOfAll hch
        omega
      rw [Tree.outlineLevels, hc, h.node_eq]
      cases layout with
      | leaf token start stop => rfl
      | node kind start stop children => rw [strip, Draft.outline, Draft.outlineOfAll_eq_map]; rfl

private theorem Filed.outline_eq (h : Filed tree parent id layout) :
    tree.outline id = (layout.strip tree.tokens).outline tree.tokens :=
  h.outlineLevels_eq (by have := h.add_size_le; omega)

end Layout

/-- In the tree of a forest, the outline of a token is its kind and its position, and that of another node is its kind
over the outlines of its significant children. -/
theorem Tree.outline_node (forest : Forest) (src : Source) (path : String) (lexical : List Problem) {id : Nat}
    {tree : Tree} (ht : tree = Tree.ofForest forest src path lexical) (hid : id < tree.size) :
    tree.outline id = match (tree.node id).token with
      | some place => .leaf (tree.node id).kind (positionOf tree.tokens place)
      | none => .node (tree.node id).kind ((tree.significantChildren id).map tree.outline) := by
  subst ht
  rw [Layout.size_ofForest] at hid
  obtain ⟨found, above, hf, -, -⟩ := (Layout.filed_ofForest forest src path lexical).exists_at
    (P := fun _ => True) (fun _ _ _ _ => trivial) trivial (Nat.zero_le id) (by omega)
  have hc := hf.map_significantChildren fun child _ _ _ hch => hch.outline_eq
  rw [hf.outline_eq, hc, hf.node_eq]
  cases found with
  | leaf token start stop => rfl
  | node kind start stop children => rw [Layout.strip, Draft.outline, Draft.outlineOfAll_eq_map]; rfl

/-! ## Outlines of drafts -/

namespace Draft

variable {grammar : Grammar} {tokens others : Array Token} {significant places : Array Nat}

private theorem map_outline_leaves (tokens : Array Token) (significant : Array Nat) (start stop : Nat) :
    (leaves significant start stop).map (outline tokens) =
      ((significant.map (Outline.ofToken tokens)).extract start stop).toList := by
  rw [leaves, map_map, ← Array.map_extract, Array.toList_map]
  rfl

private theorem getElem?_map_ofToken (tokens : Array Token) {pos : Nat} (h : pos < significant.size) :
    (significant.map (Outline.ofToken tokens))[pos]? =
      some (Outline.ofToken tokens (significant.getD pos 0)) := by
  simp [Array.getD_eq_getD_getElem?, h]

private theorem map_outline_wrap {drafts more : List Draft}
    (h : drafts.map (outline tokens) = more.map (outline others))
    (name : String) :
    (wrap grammar name drafts).map (outline tokens) = (wrap grammar name more).map (outline others) := by
  have hl : drafts.length = more.length := by simpa using congrArg List.length h
  unfold wrap
  rw [hl]
  split
  · exact h
  · split
    · exact h
    · simp only [map_cons, map_nil, outline, outlineOfAll_eq_map, h]

private theorem map_outline_ofDerivations {parts : List Derivation}
    (h : ∀ part ∈ parts, (ofDerivation grammar significant part).map (outline tokens) =
      (ofDerivation grammar places part).map (outline others)) :
    (ofDerivations grammar significant parts).map (outline tokens) =
      (ofDerivations grammar places parts).map (outline others) := by
  induction parts with
  | nil => rfl
  | cons part parts ih =>
    rw [ofDerivations, ofDerivations, map_append, map_append, h part mem_cons_self, ih (forall_mem_cons.1 h).2]

/-- Where the significant tokens look the same, so do the drafts of a derivation. -/
private theorem map_outline_ofDerivation
    (hl : significant.map (Outline.ofToken tokens) = places.map (Outline.ofToken others))
    {kinds : Array String} {gaps : List Chart.Gap} (hs : kinds.size = significant.size) {deriv : Derivation}
    (hv : deriv.Valid grammar kinds gaps) :
    (ofDerivation grammar significant deriv).map (outline tokens) =
      (ofDerivation grammar places deriv).map (outline others) := by
  induction hv with
  | @token pos hlt =>
    have ho : places.size = significant.size := by simpa using (congrArg Array.size hl).symm
    have hh := getElem?_map_ofToken tokens (hs ▸ hlt)
    have ht := getElem?_map_ofToken others (ho ▸ hs ▸ hlt)
    rw [hl, ht] at hh
    exact congrArg ([·]) (Option.some.inj hh).symm
  | phrase _ _ _ _ ih | empty _ _ _ ih => exact map_outline_wrap (map_outline_ofDerivations ih) _
  | @skipped start stop =>
    have hot : (leaves significant start stop).map (outline tokens) =
        (leaves places start stop).map (outline others) := by
      rw [map_outline_leaves, map_outline_leaves, hl]
    simp only [ofDerivation, map_cons, map_nil, outline, outlineOfAll_eq_map, hot]

/-! ## Positions of tokens -/

private theorem map_countP_filter_range (counted : Nat → Bool) (count : Nat) :
    ((List.range count).filter counted).map (fun place => (List.range place).countP counted) =
      List.range ((List.range count).countP counted) := by
  induction count with
  | zero => rfl
  | succ count ih =>
    rw [range_succ, filter_append, map_append, ih, countP_append]
    cases hc : counted count with
    | true => simp [hc, range_succ]
    | false => simp [hc]

private theorem map_positionOf_significantPlaces (tokens : List Token) :
    (significantPlaces tokens).map (positionOf tokens.toArray) = List.range (Forest.meaningfulKinds tokens).size := by
  have hp : significantPlaces tokens = (List.range tokens.toArray.size).filter (meaningfulAt tokens.toArray) := by
    rw [significantPlaces_eq_filter, range_eq_range']
    rfl
  have hpo := map_countP_filter_range (meaningfulAt tokens.toArray) tokens.toArray.size
  rw [countP_eq_length_filter, ← hp, length_significantPlaces] at hpo
  exact hpo

private theorem map_kind_significantPlaces (tokens : List Token) :
    (significantPlaces tokens).map (fun place => (tokens.toArray.getD place default).kind) =
      (Forest.meaningfulKinds tokens).toList := by
  have ht := congrArg (List.map (·.kind)) (map_significantPlaces tokens)
  rw [map_map] at ht
  rw [Forest.meaningfulKinds, Array.toList_map]
  exact ht

theorem map_ofToken_eq_zipWith (tokens : List Token) : (significantPlaces tokens).map (Outline.ofToken tokens.toArray) =
      List.zipWith Outline.leaf (Forest.meaningfulKinds tokens).toList
        (List.range (Forest.meaningfulKinds tokens).size) := by
  rw [← map_kind_significantPlaces, ← map_positionOf_significantPlaces, zipWith_map, zipWith_self]
  rfl

/-- Where the significant kinds are the same, the significant tokens look the same. -/
private theorem map_ofToken_significantPlaces {tokens others : List Token}
    (hk : Forest.meaningfulKinds others = Forest.meaningfulKinds tokens) :
    (significantPlaces tokens).map (Outline.ofToken tokens.toArray) =
      (significantPlaces others).map (Outline.ofToken others.toArray) := by
  rw [map_ofToken_eq_zipWith, map_ofToken_eq_zipWith, hk]

/-- The drafts of forests look the same where the significant kinds are the same. -/
private theorem map_outline_ofForest {tokens others : List Token} (hg : grammar.Tabulated)
    (hk : Forest.meaningfulKinds others = Forest.meaningfulKinds tokens) (cfg : Config) :
    (ofForest (Forest.parse grammar tokens cfg)).map (outline tokens.toArray) =
      (ofForest (Forest.parse grammar others cfg)).map (outline others.toArray) := by
  have ha := Forest.alike_parse hk grammar cfg
  have hkp := Forest.parse_keepsake grammar tokens cfg
  have hk' := Forest.parse_keepsake grammar others cfg
  have hr := @Forest.exists_root?_eq grammar tokens cfg
  generalize Forest.parse grammar tokens cfg = forest at *
  generalize Forest.parse grammar others cfg = other at *
  have hl : forest.significant.map (Outline.ofToken tokens.toArray) =
      other.significant.map (Outline.ofToken others.toArray) := by
    rw [hkp.significant_eq, hk'.significant_eq, map_toArray, map_toArray]
    exact congrArg List.toArray (map_ofToken_significantPlaces hk)
  have hs : (Forest.meaningfulKinds tokens).size = forest.significant.size := by
    rw [hkp.significant_eq, ← length_significantPlaces]
    rfl
  have hsz : other.significant.size = forest.significant.size := by simpa using (congrArg Array.size hl).symm
  have hp : ((forest.root?.map (ofDerivation grammar forest.significant)).getD []).map (outline tokens.toArray) =
      ((forest.root?.map (ofDerivation grammar other.significant)).getD []).map (outline others.toArray) := by
    cases hpr : forest.parsed with
    | none => simp only [Forest.root?_eq_none hpr, Option.map_none, Option.getD_none, map_nil]
    | some stop =>
      obtain ⟨deriv, heq, -, hd⟩ := hr hg hpr
      rw [heq]
      exact map_outline_ofDerivation hl hs hd.valid
  have hrs : ∀ start, (leaves forest.significant start forest.significant.size).map (outline tokens.toArray) =
      (leaves other.significant start other.significant.size).map (outline others.toArray) := by
    intro start
    rw [map_outline_leaves, map_outline_leaves, hl, hsz]
  rw [ofForest_eq, ofForest_eq, map_append, map_append, ha.root?_eq, ha.unparsedFrom_eq,
    hkp.grammar_eq, hk'.grammar_eq, hp]
  cases forest.unparsedFrom with
  | none => simp only [Option.map_none, Option.getD_none, map_nil]
  | some start =>
    simp only [Option.map_some, Option.getD_some, map_cons, map_nil, outline, outlineOfAll_eq_map, hrs]

end Draft

/-! ## Trees -/

namespace Tree

variable {grammar : Grammar}

theorem outline_ofForest (hg : grammar.Tabulated) (tokens : List Token) (cfg : Config) (src : Source)
    (path : String) (lexical : List Problem) :
    (ofForest (Forest.parse grammar tokens cfg) src path lexical).outline 0 =
      .node Grammar.documentKind ((Draft.ofForest (Forest.parse grammar tokens cfg)).map
        (Draft.outline tokens.toArray)) := by
  have hf := Layout.filed_ofForest (Forest.parse grammar tokens cfg) src path lexical
  have ht : (ofForest (Forest.parse grammar tokens cfg) src path lexical).tokens = tokens.toArray :=
    (Forest.parse_keepsake grammar tokens cfg).tokens_eq
  rw [hf.outline_eq, ht, (Forest.parse_keepsake grammar tokens cfg).tokens_eq,
    Layout.strip_root_ofForest hg, Draft.outline, Draft.outlineOfAll_eq_map]

/-- Two lists of tokens with the same significant kinds have the same parse, and their trees are the same but for
trivia. -/
theorem parse_ignores_trivia {description : Grammar.Description} (hbuild : Grammar.build description = .ok grammar)
    (config : Config) {tokens others : List Token}
    (hkinds : (tokens.filter fun token => !token.trivia).map (·.kind) =
      (others.filter fun token => !token.trivia).map (·.kind)) :
    Forest.Alike (Forest.parse grammar tokens config) (Forest.parse grammar others config) ∧
    ∀ source path lexical source' path' lexical',
      (ofForest (Forest.parse grammar tokens config) source path lexical).outline 0 =
        (ofForest (Forest.parse grammar others config) source' path' lexical').outline 0 := by
  have hg := (Grammar.built_of_build hbuild).tabulated
  have hm : Forest.meaningfulKinds others = Forest.meaningfulKinds tokens := by
    rw [← Array.toList_inj, Forest.toList_meaningfulKinds, Forest.toList_meaningfulKinds, hkinds]
  refine ⟨Forest.alike_parse hm grammar config, ?_⟩
  intro source path lexical source' path' lexical'
  rw [outline_ofForest hg, outline_ofForest hg, Draft.map_outline_ofForest hg hm]

def bareTokens : List Token :=
  [{ kind := "a", kindId := 6, start := 0, stop := 1, text := Text.ofString "a" }]

/-- A longer token of the same kind between blanks. -/
def spacedTokens : List Token :=
  [{ kind := "whitespace", kindId := 4, start := 0, stop := 1, text := Text.ofString " ", trivia := true },
    { kind := "a", kindId := 6, start := 1, stop := 4, text := Text.ofString "aaa", column := 2 },
    { kind := "whitespace", kindId := 4, start := 4, stop := 5, text := Text.ofString " ", trivia := true, column := 5 }
  ]

theorem trivia_ignored_of_loop : ∃ grammar, Grammar.build Grammar.loop = .ok grammar ∧
    (bareTokens.filter fun token => !token.trivia).map (·.kind) =
      (spacedTokens.filter fun token => !token.trivia).map (·.kind) ∧
    Forest.Alike (Forest.parse grammar bareTokens {}) (Forest.parse grammar spacedTokens {}) ∧
    (ofForest (Forest.parse grammar bareTokens {}) (.ofText (Text.ofString "a")) defaultPath []).outline 0 =
      (ofForest (Forest.parse grammar spacedTokens {}) (.ofText (Text.ofString " aaa ")) defaultPath []).outline 0 := by
  obtain ⟨grammar, hb⟩ := Grammar.exists_build_loop
  have hk : (bareTokens.filter fun token => !token.trivia).map (·.kind) =
      (spacedTokens.filter fun token => !token.trivia).map (·.kind) := rfl
  obtain ⟨ha, ho⟩ := parse_ignores_trivia hb {} hk
  exact ⟨grammar, hb, hk, ha, ho ..⟩

end Tree

end TreeLint
