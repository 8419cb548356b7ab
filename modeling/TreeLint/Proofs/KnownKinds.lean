import TreeLint.Proofs.CheckedNames
import TreeLint.Proofs.Lossless
import TreeLint.Proofs.Stripping

/-!
# Kinds of nodes

Every node of a tree has a kind that its grammar knows: tokens have the kinds of token rules, or one of the kinds for
what no rule matches, and all other nodes have the kinds of productions, or one of the kinds for documents and faults.

* `Grammar.Built.mem_kinds_iff`: the kinds that a grammar knows;
* `kind_of_mem_reservedKinds`: of the reserved kinds, tokens have only those for what no rule matches;
* `Tree.kind_of_isLeaf`, `Tree.kind_of_not_isLeaf`: the kinds of the leaves of a tree, and of its other nodes;
* `Tree.kindId?_node`: the grammar knows the kinds of the nodes of every tree.
-/

namespace TreeLint

open List Grammar

namespace Grammar

variable {desc : Description} {g : Grammar} {name : String}

private theorem map_rule_of_compileRules {earlier rules : List TokenRule} {scanners : List Scanner}
    (h : compileRules earlier rules = .ok scanners) : scanners.map (·.rule) = rules := by
  induction rules generalizing earlier scanners with
  | nil =>
    cases h
    rfl
  | cons rule rules ih =>
    rw [compileRules, bind_eq_ok_iff] at h
    obtain ⟨regex, -, h⟩ := h
    split at h
    · simp only [bind_eq_ok_iff, throw_ne_ok, false_and, exists_false] at h
    · simp only [bind_eq_ok_iff, pure_eq_ok_iff] at h
      obtain ⟨rest, hr, rfl⟩ := h
      rw [map_cons, ih hr]

theorem Built.mem_kinds_iff (h : Built desc g) :
    name ∈ g.kinds ↔ name ∈ reservedKinds ∨ name ∈ desc.names ∨ name ∈ desc.tokenNames := by
  rw [h.kinds_eq, kindTable, mem_append, mem_append, mem_filter]
  constructor
  · rintro ((hr | hp) | ⟨ht, -⟩)
    · exact .inl hr
    · exact .inr (.inl hp)
    · exact .inr (.inr ht)
  · rintro (hr | hp | ht)
    · exact .inl (.inl hr)
    · exact .inl (.inr hp)
    · by_cases hr : name ∈ reservedKinds
      · exact .inl (.inl hr)
      · exact .inr ⟨ht, by simpa using hr⟩

/-- Only the nodes of productions stay. -/
theorem Built.mem_names_of_isInline (h : Built desc g) (hi : g.isInline name = false) :
    name ∈ desc.names := by
  unfold isInline at hi
  split at hi
  next production hp =>
    have hm := mem_of_find?_eq_some hp
    have hn : production.name = name := by simpa using find?_some hp
    rw [h.productions_eq] at hm
    exact mem_map.2 ⟨production, hm, hn⟩
  · cases hi

theorem Built.map_rule_scanners (h : Built desc g) : g.scanners.map (·.rule) = desc.rules :=
  map_rule_of_compileRules h.scanners_compiled

theorem kindId?_eq_some_kindId (h : name ∈ g.kinds) : g.kindId? name = some (g.kindId name) := by
  unfold kindId? kindId
  cases hf : g.kinds.idxOf? name with
  | none => exact absurd h (idxOf?_eq_none_iff.1 hf)
  | some id => rw [idxOf_eq_getD_idxOf?, hf, Option.getD_some]

end Grammar

/-! ## Kinds of tokens -/

variable {g : Grammar} {scanners : List Scanner} {subject : Array Glyph}

theorem getD_mem {tokens : List Token} {place : Nat} (h : place < tokens.toArray.size) :
    tokens.toArray.getD place default ∈ tokens := by
  rw [size_toArray] at h
  rw [Array.getD_eq_getD_getElem?, getElem?_toArray, getElem?_eq_getElem h, Option.getD_some]
  exact getElem_mem h

private theorem kind_pieceAt (pos : Nat) :
    (∃ scanner ∈ scanners, (pieceAt scanners subject pos).kind = scanner.rule.name) ∨
      (pieceAt scanners subject pos).kind = whitespaceKind ∨
      (pieceAt scanners subject pos).kind = unknownKind ∧
        (pieceAt scanners subject pos).trivia = false := by
  unfold pieceAt
  split
  next winner hw =>
    obtain ⟨scanner, hs, hr, -⟩ := exists_of_best? hw
    exact .inl ⟨scanner, hs, by rw [hr]⟩
  · refine .inr ?_
    cases isBlankAt subject pos with
    | true => exact .inl rfl
    | false => exact .inr ⟨rfl, rfl⟩

section

variable {desc : Description} {src : Source} {token : Token} (h : Built desc g) (ht : token ∈ tokenize g src)

include h ht

private theorem kind_of_mem_tokenize : token.kind ∈ desc.tokenNames ∨ token.kind = whitespaceKind ∨
    token.kind = unknownKind ∧ token.trivia = false := by
  obtain ⟨k, hk⟩ := mem_iff_getElem?.1 ht
  obtain ⟨piece, hp, hof⟩ := exists_piece_of_tokensFrom hk
  rw [hof.kind_eq, hof.trivia_eq, eq_pieceAt_of_mem (mem_of_getElem? hp)]
  refine (kind_pieceAt piece.start).imp_left ?_
  rintro ⟨scanner, hs, hkn⟩
  refine mem_map.2 ⟨scanner.rule, ?_, hkn.symm⟩
  rw [← h.map_rule_scanners]
  exact mem_map.2 ⟨scanner, hs, rfl⟩

/-- Of the reserved kinds, tokens have only those for what no rule matches. -/
theorem kind_of_mem_reservedKinds (hr : token.kind ∈ reservedKinds) :
    token.kind = whitespaceKind ∨ token.kind = unknownKind ∧ token.trivia = false := by
  rcases kind_of_mem_tokenize h ht with hrl | hk
  · exact .inl ((h.tokenNames_checks hrl).2 hr)
  · exact hk

private theorem kind_mem_tokenNames_or : token.kind ∈ desc.tokenNames ∨ token.kind ∈ reservedKinds := by
  refine (kind_of_mem_tokenize h ht).imp_right ?_
  rintro (hk | ⟨hk, -⟩) <;> rw [hk] <;> decide

/-- The grammar knows the kinds of all tokens. -/
theorem kindId?_token : g.kindId? token.kind = some token.kindId := by
  obtain ⟨k, hk⟩ := mem_iff_getElem?.1 ht
  obtain ⟨piece, -, hof⟩ := exists_piece_of_tokensFrom hk
  rw [hof.kindId_eq, ← hof.kind_eq]
  exact kindId?_eq_some_kindId (h.mem_kinds_iff.2 ((kind_mem_tokenNames_or h ht).symm.imp_right .inr))

end

/-! ## Kinds of other nodes -/

namespace Draft

mutual

def nodeKinds : Draft → List String
  | .leaf _ => []
  | .node kind children => kind :: nodeKindsOfAll children

def nodeKindsOfAll : List Draft → List String
  | [] => []
  | child :: children => nodeKinds child ++ nodeKindsOfAll children

end

private theorem nodeKindsOfAll_append (drafts more : List Draft) :
    nodeKindsOfAll (drafts ++ more) = nodeKindsOfAll drafts ++ nodeKindsOfAll more := by
  induction drafts with
  | nil => rfl
  | cons draft drafts ih => rw [cons_append, nodeKindsOfAll, nodeKindsOfAll, ih, append_assoc]

private theorem nodeKindsOfAll_map_leaf (places : List Nat) : nodeKindsOfAll (places.map .leaf) = [] := by
  induction places with
  | nil => rfl
  | cons place places ih => exact ih

/-- The nodes of the draft of a derivation are those of productions, or stand over skipped tokens. -/
private theorem mem_nodeKindsOfAll_ofDerivation {kinds : Array String} {gaps : List Chart.Gap} {significant : Array Nat}
    {deriv : Derivation} (h : deriv.Valid g kinds gaps) {kind : String}
    (hk : kind ∈ nodeKindsOfAll (ofDerivation g significant deriv)) :
    kind = errorKind ∨ g.isInline kind = false := by
  have hp : ∀ {parts : List Derivation}, (∀ part ∈ parts,
      kind ∈ nodeKindsOfAll (ofDerivation g significant part) →
        kind = errorKind ∨ g.isInline kind = false) → ∀ name,
      kind ∈ nodeKindsOfAll (wrap g name (ofDerivations g significant parts)) →
        kind = errorKind ∨ g.isInline kind = false := by
    intro parts ih name hw
    have hb : kind ∈ nodeKindsOfAll (ofDerivations g significant parts) →
        kind = errorKind ∨ g.isInline kind = false := by
      clear hw
      induction parts with
      | nil => exact fun hm => absurd hm not_mem_nil
      | cons part parts rest =>
        rw [ofDerivations, nodeKindsOfAll_append, mem_append]
        rintro (hm | hm)
        · exact ih part mem_cons_self hm
        · exact rest (forall_mem_cons.1 ih).2 hm
    unfold wrap at hw
    split at hw
    · exact hb hw
    next hi =>
      split at hw
      · exact hb hw
      · rw [nodeKindsOfAll, nodeKindsOfAll, nodeKinds, append_nil] at hw
        rcases mem_cons.1 hw with rfl | hw
        · exact .inr (by simpa using hi)
        · exact hb hw
  induction h with
  | token => cases hk
  | phrase _ _ _ _ ih | empty _ _ _ ih => exact hp ih _ hk
  | skipped =>
    rw [ofDerivation, nodeKindsOfAll, nodeKindsOfAll, nodeKinds, leaves, nodeKindsOfAll_map_leaf] at hk
    exact .inl (by simpa using hk)

/-- The nodes of the drafts of a forest are those of productions, or stand over faults. -/
private theorem mem_nodeKindsOfAll_ofForest (hg : g.Tabulated) {tokens : List Token} {cfg : Config} {kind : String}
    (hk : kind ∈ nodeKindsOfAll (ofForest (Forest.parse g tokens cfg))) :
    kind ∈ reservedKinds ∨ g.isInline kind = false := by
  have hkp := Forest.parse_keepsake g tokens cfg
  have hr := @Forest.exists_root?_eq g tokens cfg
  generalize Forest.parse g tokens cfg = forest at *
  rw [ofForest_eq, nodeKindsOfAll_append, mem_append] at hk
  rcases hk with hk | hk
  · cases hp : forest.parsed with
    | none =>
      rw [Forest.root?_eq_none hp] at hk
      cases hk
    | some stop =>
      obtain ⟨deriv, heq, -, hd⟩ := hr hg hp
      rw [heq, hkp.grammar_eq] at hk
      rcases mem_nodeKindsOfAll_ofDerivation hd.valid hk with rfl | hi
      · exact .inl (by decide)
      · exact .inr hi
  · cases hu : forest.unparsedFrom with
    | none =>
      rw [hu] at hk
      cases hk
    | some start =>
      rw [hu, Option.map_some, Option.getD_some, nodeKindsOfAll, nodeKindsOfAll, nodeKinds, leaves,
        nodeKindsOfAll_map_leaf, append_nil, mem_singleton] at hk
      subst hk
      exact .inl (by decide)

end Draft

namespace Layout

mutual

def nodeKinds : Layout → List String
  | .leaf _ _ _ => []
  | .node kind _ _ children => kind :: nodeKindsOfAll children

def nodeKindsOfAll : List Layout → List String
  | [] => []
  | child :: children => nodeKinds child ++ nodeKindsOfAll children

end

private theorem nodeKindsOfAll_stripAll {tokens : Array Token} {layouts : List Layout}
    (h : ∀ layout ∈ layouts, (layout.strip tokens).nodeKinds = layout.nodeKinds) :
    Draft.nodeKindsOfAll (stripAll tokens layouts) = nodeKindsOfAll layouts := by
  induction layouts with
  | nil => rfl
  | cons layout layouts ih =>
    rw [stripAll, nodeKindsOfAll, ← h layout mem_cons_self, ← ih (forall_mem_cons.1 h).2]
    split
    · rfl
    next hm =>
      cases layout with
      | leaf => rfl
      | node => exact absurd rfl hm

/-- Trivia have no nodes but leaves. -/
private theorem nodeKinds_strip (tokens : Array Token) (layout : Layout) :
    (layout.strip tokens).nodeKinds = layout.nodeKinds := by
  induction layout using Layout.induction with
  | leaf => rfl
  | node kind start stop children ih => rw [strip, nodeKinds, Draft.nodeKinds, nodeKindsOfAll_stripAll ih]

private theorem nodeKinds_subset {layout child : Layout} (hc : child ∈ layout.children) :
    child.nodeKinds ⊆ layout.nodeKinds := by
  cases layout with
  | leaf => cases hc
  | node kind start stop children =>
    have ha : child.nodeKinds ⊆ nodeKindsOfAll children := by
      have hm : child ∈ children := hc
      clear hc
      induction children with
      | nil => cases hm
      | cons first children ih =>
        rcases mem_cons.1 hm with rfl | hm
        · exact subset_append_left _ _
        · exact fun kind hk => mem_append_right _ (ih hm hk)
    exact fun kind hk => mem_cons_of_mem _ (ha hk)

end Layout

/-! ## Kinds in trees -/

namespace Tree

variable {tree : Tree} {cut : Nat → Nat} {layout : Layout} {id : Nat}

private theorem Spread.kind_mem_nodeKinds (h : Spread tree cut layout) (hid : id < tree.size)
    (hl : (tree.node id).token = none) : (tree.node id).kind ∈ layout.nodeKinds := by
  rw [h.size_eq] at hid
  obtain ⟨found, above, hf, hs, -⟩ := h.filed.exists_at
    (fun layout' hs child hc => List.Subset.trans (Layout.nodeKinds_subset hc) hs)
    (List.Subset.refl layout.nodeKinds) (Nat.zero_le id) (by omega)
  rw [hf.node_eq] at hl ⊢
  cases found with
  | leaf => cases hl
  | node kind start stop children => exact hs mem_cons_self

theorem Grown.exists_leaf (h : Grown tree cut layout) {place : Nat} (hp : place < tree.tokens.size) :
    ∃ leaf < tree.size, (tree.node leaf).token = some place := by
  have hm : some place ∈ (tree.leaves 0).map fun leaf => (tree.node leaf).token := by
    rw [h.leaves_tokens]
    exact mem_map_of_mem (mem_range.2 hp)
  obtain ⟨leaf, hl, ht⟩ := mem_map.1 hm
  rw [h.leaves_zero, ← range_eq_range', mem_filter, mem_range] at hl
  exact ⟨leaf, hl.1, ht⟩

theorem Spread.kindId_eq (h : Spread tree cut layout) (hid : id < tree.size) :
    (tree.node id).kindId = tree.grammar.kindId (tree.node id).kind := by
  obtain ⟨found, above, first, last, hf, -⟩ := h.exists_at hid
  rw [hf.node_eq]
  cases found <;> rfl

/-! ## Trees of sources -/

variable {desc : Description} {src : Source}

theorem kind_of_isLeaf (hb : Built desc g) (hs : src.Encoded)
    (path : String) (cfg : Config) (hl : ((parse g src path cfg).node id).isLeaf) :
    ((parse g src path cfg).node id).kind ∈ desc.tokenNames ∨
      ((parse g src path cfg).node id).kind ∈ reservedKinds := by
  obtain ⟨cut, -, hg⟩ := spread_parse hb.tabulated hs path cfg
  have ht : (parse g src path cfg).tokens = (tokenize g src).toArray :=
    (Forest.parse_keepsake g (tokenize g src) cfg).tokens_eq
  obtain ⟨place, htk⟩ := Option.isSome_iff_exists.1 hl
  have hp := (hg.leaf_eq htk).1
  rw [(hg.leaf_kind htk).1]
  rw [ht] at hp ⊢
  exact kind_mem_tokenNames_or hb (getD_mem hp)

theorem kind_of_not_isLeaf (hb : Built desc g) (hs : src.Encoded)
    (path : String) (cfg : Config) (hid : id < (parse g src path cfg).size)
    (hl : ((parse g src path cfg).node id).isLeaf = false) :
    ((parse g src path cfg).node id).kind ∈ desc.names ∨
      ((parse g src path cfg).node id).kind ∈ reservedKinds := by
  obtain ⟨cut, -, hg⟩ := spread_parse hb.tabulated hs path cfg
  have hk := hg.kind_mem_nodeKinds hid (by simpa [Node.isLeaf] using hl)
  rw [(Forest.parse_keepsake g (tokenize g src) cfg).tokens_eq, ← Layout.nodeKinds_strip (tokenize g src).toArray,
    Layout.strip_root_ofForest hb.tabulated] at hk
  rcases mem_cons.1 hk with hd | hk
  · exact .inr (by rw [hd]; decide)
  · rcases Draft.mem_nodeKindsOfAll_ofForest hb.tabulated hk with hr | hi
    · exact .inr hr
    · exact .inl (hb.mem_names_of_isInline hi)

theorem kindId?_node (hb : Built desc g) (hs : src.Encoded) (path : String)
    (cfg : Config) (hid : id < (parse g src path cfg).size) :
    g.kindId? ((parse g src path cfg).node id).kind =
      some ((parse g src path cfg).node id).kindId := by
  obtain ⟨cut, -, hg⟩ := spread_parse hb.tabulated hs path cfg
  have hgr : (parse g src path cfg).grammar = g :=
    (Forest.parse_keepsake g (tokenize g src) cfg).grammar_eq
  rw [hg.kindId_eq hid, hgr]
  refine kindId?_eq_some_kindId ?_
  rw [hb.mem_kinds_iff]
  cases hl : ((parse g src path cfg).node id).isLeaf with
  | true =>
    rcases kind_of_isLeaf hb hs path cfg hl with ht | hr
    · exact .inr (.inr ht)
    · exact .inl hr
  | false =>
    rcases kind_of_not_isLeaf hb hs path cfg hid hl with hn | hr
    · exact .inr (.inl hn)
    · exact .inl hr

end Tree

end TreeLint
