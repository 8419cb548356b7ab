import TreeLint.Proofs.Expansion
import TreeLint.Proofs.KnownKinds
import TreeLint.Proofs.RegularTokens

/-!
# Sentences in trees

Whatever was parsed, the significant tokens outside faulty nodes form a sentence of the start symbol.

* `Layout.Filed.filterMap_regular`: the leaves of a tree outside faulty nodes are the regular tokens of its layout;
* `Tree.sentence_parse`: these are the tokens of the selected derivation.
-/

namespace TreeLint

open List Grammar Forest

namespace Tree

/-- Whether no node above a node is faulty. -/
def isRegular (tree : Tree) (id : Nat) : Bool :=
  (tree.ancestors id).all fun above => !isFaulty (tree.node above).kind

/-- The kinds of the significant tokens that are not below a faulty node. -/
def sentence (tree : Tree) : List String :=
  ((tree.leaves 0).filter fun leaf => !(tree.node leaf).trivia && tree.isRegular leaf).map
    fun leaf => (tree.node leaf).kind

variable {tree : Tree} {id above : Nat}

/-! ## Ancestors -/

/-- Where parents come before their children, no more steps up are needed than there are nodes before. -/
private theorem ancestorsUpTo_eq (hlt : ∀ {id above}, (tree.node id).parent = some above → above < id) {count : Nat}
    (hc : id ≤ count) : tree.ancestorsUpTo count id = tree.ancestorsUpTo id id := by
  induction id using Nat.strongRecOn generalizing count with
  | ind id ih =>
    cases hp : (tree.node id).parent with
    | none => cases id <;> cases count <;> simp [ancestorsUpTo, hp]
    | some above =>
      have ha := hlt hp
      obtain ⟨count, rfl⟩ : ∃ fewer, count = fewer + 1 := ⟨count - 1, by omega⟩
      obtain ⟨before, rfl⟩ : ∃ before, id = before + 1 := ⟨id - 1, by omega⟩
      rw [ancestorsUpTo, ancestorsUpTo, hp]
      simp only
      rw [ih above ha (show above ≤ count by omega), ih above ha (show above ≤ before by omega)]

theorem ancestors_eq_cons (hlt : ∀ {id above}, (tree.node id).parent = some above → above < id)
    (hp : (tree.node id).parent = some above) : tree.ancestors id = above :: tree.ancestors above := by
  have ha := hlt hp
  have hid : id < tree.size := by
    by_contra hid
    rw [Grown.node_of_size_le (by omega)] at hp
    cases hp
  obtain ⟨count, hc⟩ : ∃ count, tree.size = count + 1 := ⟨tree.size - 1, by omega⟩
  rw [ancestors, ancestors, hc, ancestorsUpTo, hp]
  simp only
  rw [ancestorsUpTo_eq hlt (show above ≤ count by omega), ancestorsUpTo_eq hlt (show above ≤ count + 1 by omega)]

theorem ancestors_eq_nil (hp : (tree.node id).parent = none) : tree.ancestors id = [] := by
  rw [ancestors]
  cases tree.size <;> simp [ancestorsUpTo, hp]

private theorem isRegular_eq (hlt : ∀ {id above}, (tree.node id).parent = some above → above < id)
    (hp : (tree.node id).parent = some above) :
    tree.isRegular id = (!isFaulty (tree.node above).kind && tree.isRegular above) := by
  rw [isRegular, ancestors_eq_cons hlt hp, all_cons]
  rfl

private theorem isRegular_of_parent_eq_none (hp : (tree.node id).parent = none) : tree.isRegular id = true := by
  rw [isRegular, ancestors_eq_nil hp, all_nil]

end Tree

/-! ## Regular leaves -/

namespace Layout

variable {tree : Tree} {layout : Layout} {parent : Option Nat} {id : Nat}

private theorem FiledAll.filterMap_regular {layouts : List Layout} {above start : Nat}
    (hlt : ∀ {id above}, (tree.node id).parent = some above → above < id) (h : FiledAll tree above start layouts)
    (ha : ∀ child ∈ layouts, ∀ id, Filed tree (some above) id child →
      ((List.range' id child.size).filter tree.isRegular).filterMap (fun number => (tree.node number).token) =
        if tree.isRegular id then child.regular else []) :
    ((List.range' start (sizeOfAll layouts)).filter tree.isRegular).filterMap (fun number => (tree.node number).token) =
      if !isFaulty (tree.node above).kind && tree.isRegular above then regularOfAll layouts else [] := by
  induction layouts generalizing start with
  | nil => simp [sizeOfAll, regularOfAll]
  | cons layout layouts ih =>
    have hp : (tree.node start).parent = some above := by rw [h.1.node_eq, head_parent]
    rw [sizeOfAll, ← range'_append_1, filter_append, filterMap_append,
      ha layout mem_cons_self start h.1, ih h.2 (forall_mem_cons.1 ha).2,
      Tree.isRegular_eq hlt hp, regularOfAll]
    split <;> rfl

theorem Filed.filterMap_regular (hlt : ∀ {id above}, (tree.node id).parent = some above → above < id)
    (h : Filed tree parent id layout) :
    ((List.range' id layout.size).filter tree.isRegular).filterMap (fun number => (tree.node number).token) =
      if tree.isRegular id then layout.regular else [] := by
  induction layout using Layout.induction generalizing parent id with
  | leaf token start stop =>
    rw [size, range'_one, regular]
    cases hr : tree.isRegular id <;> simp [hr, h.node_eq, head]
  | node kind start stop children ih =>
    have hn : (tree.node id).token = none := by rw [h.node_eq, head]
    have hk : (tree.node id).kind = kind := by rw [h.node_eq, head]
    have hb := FiledAll.filterMap_regular hlt h.2 fun child hc id hf => ih child hc hf
    rw [hk] at hb
    rw [size, range'_succ, regular, filter_cons]
    split
    next hr =>
      rw [filterMap_cons, hn, hb, hr]
      cases isFaulty kind <;> rfl
    next hr =>
      rw [hb, Bool.eq_false_iff.2 hr, Bool.and_false]
      rfl

end Layout

namespace Tree

open Layout (le_of_mem_childIds)

variable {tree : Tree} {cut : Nat → Nat} {layout : Layout} {id above : Nat}

theorem Grown.parent_lt (h : Grown tree cut layout) (hp : (tree.node id).parent = some above) : above < id := by
  have hm := (h.mem_children_iff above id).2 hp
  by_cases ha : above < tree.size
  · obtain ⟨found, _, _, _, hf, -⟩ := h.exists_at ha
    rw [hf.node_eq, Layout.head_children] at hm
    exact le_of_mem_childIds hm
  · rw [Grown.node_of_size_le (by omega)] at hm
    cases hm

private theorem filterMap_filter_token {p q : Nat → Bool} (tree : Tree) (ids : List Nat)
    (hpq : ∀ {id place : Nat}, (tree.node id).token = some place → p id = q place) :
    (ids.filter p).filterMap (fun id => (tree.node id).token) =
      (ids.filterMap fun id => (tree.node id).token).filter q := by
  rw [filterMap_filter, filter_filterMap]
  congr 1
  funext id
  cases ht : (tree.node id).token with
  | none => simp
  | some place => simp [hpq ht, Option.filter]

/-- What is asked of the leaves of a tree and read off them is asked of its tokens and read off them. -/
theorem Grown.map_filter_leaves {α : Type} (h : Grown tree cut layout) {p q : Nat → Bool} {f g : Nat → α}
    (hpq : ∀ {id place : Nat}, (tree.node id).token = some place → p id = q place)
    (hfg : ∀ {id place : Nat}, (tree.node id).token = some place → f id = g place) :
    ((tree.leaves 0).filter p).map f = ((List.range' 0 tree.tokens.size).filter q).map g := by
  rw [h.leaves_zero, filter_comm, map_filter_isLeaf tree f g _ hfg, filterMap_filter_token tree _ hpq, h.size_eq,
    h.filed.filterMap_token_eq h.covers, Nat.sub_zero]

theorem Grown.sentence_eq (h : Grown tree cut layout) :
    tree.sentence = (layout.regular.filter (meaningfulAt tree.tokens)).map
      fun place => (tree.tokens.getD place default).kind := by
  have hr := Layout.Filed.filterMap_regular h.parent_lt h.filed
  have ht : ∀ {id place : Nat}, (tree.node id).token = some place →
      (!(tree.node id).trivia) = meaningfulAt tree.tokens place := by
    intro id place htk
    rw [(h.leaf_kind htk).2, meaningfulAt]
  rw [isRegular_of_parent_eq_none h.parent_zero, if_pos rfl] at hr
  rw [sentence, h.leaves_zero, filter_comm, map_filter_isLeaf tree (fun leaf => (tree.node leaf).kind)
    (fun place => (tree.tokens.getD place default).kind) _ (fun htk => (h.leaf_kind htk).1), ← filter_filter,
    filterMap_filter_token tree _ ht, h.size_eq, hr]

end Tree

/-! ## Regular tokens of forests -/

variable {description : Description} {grammar : Grammar} {tokens : List Token} {cfg : Config} {stop : Nat}

theorem Grammar.Built.isFaulty_eq_false (h : Built description grammar) {name : String}
    (hi : grammar.isInline name = false) : isFaulty name = false := by
  have hr := h.not_mem_reservedKinds (h.mem_names_of_isInline hi)
  rw [isFaulty, Bool.or_eq_false_iff]
  constructor
  all_goals
    refine beq_false_of_ne ?_
    rintro rfl
    exact hr (by decide)

theorem Draft.regularOfAll_ofForest (forest : Forest) : regularOfAll (ofForest forest) =
    regularOfAll ((forest.root?.map (ofDerivation forest.grammar forest.significant)).getD []) := by
  have hr : regularOfAll ((forest.unparsedFrom.map fun start =>
      [Draft.node unparsedKind (leaves forest.significant start forest.significant.size)]).getD []) = [] := by
    cases forest.unparsedFrom <;> rfl
  rw [ofForest_eq, regularOfAll_append, hr, append_nil]

private theorem Draft.map_regularOfAll_ofForest (hb : Built description grammar)
    (hp : (Forest.parse grammar tokens cfg).parsed = some stop) :
    ∃ deriv, (Forest.parse grammar tokens cfg).root? = some deriv ∧
      (regularOfAll (ofForest (Forest.parse grammar tokens cfg))).map
          (fun place => (tokens.toArray.getD place default).kind) =
        deriv.positions.map ((meaningfulKinds tokens).getD · "") := by
  obtain ⟨deriv, hr, -, hd⟩ := exists_root?_eq hb.tabulated hp
  have hk := parse_keepsake grammar tokens cfg
  refine ⟨deriv, hr, ?_⟩
  have hf : (regularOfAll (ofDerivation grammar (significantPlaces tokens).toArray deriv)).map
      (fun place => (tokens.toArray.getD place default).kind) =
        deriv.positions.map ((meaningfulKinds tokens).getD · "") :=
    map_regularOfAll_ofDerivation (fun _ => hb.isFaulty_eq_false)
      (fun _ hpo => kind_significantPlaces tokens hpo) hd.valid
  rw [regularOfAll_ofForest, hr, hk.grammar_eq, hk.significant_eq]
  exact hf

namespace Tree

variable {src : Source}

theorem sentence_eq (hg : grammar.Tabulated) (hs : src.Coherent) (path : String) :
    (parse grammar src path cfg).sentence =
      (Draft.regularOfAll (Draft.ofForest (Forest.parse grammar (tokenize grammar src) cfg))).map
        fun place => ((tokenize grammar src).toArray.getD place default).kind := by
  have hk := (parse_keepsake grammar (tokenize grammar src) cfg).tokens_eq
  have ht : (parse grammar src path cfg).tokens = (tokenize grammar src).toArray := hk
  have hp := (Draft.tokensOfAll_ofForest hg (tokenize grammar src) cfg).trans
    (Draft.significantPlaces_eq_filter _)
  obtain ⟨cut, hgr⟩ := grown_parse hg hs path cfg
  rw [hgr.sentence_eq, ht, hk, Layout.filter_regular_root hp]

theorem sentence_parse (hb : Built description grammar) (hs : src.Coherent) (path : String)
    (hp : (Forest.parse grammar (tokenize grammar src) cfg).parsed = some stop) :
    ∃ deriv, (Forest.parse grammar (tokenize grammar src) cfg).root? = some deriv ∧
      (parse grammar src path cfg).sentence =
        deriv.positions.map ((meaningfulKinds (tokenize grammar src)).getD · "") := by
  obtain ⟨deriv, hr, hk⟩ := Draft.map_regularOfAll_ofForest hb hp
  exact ⟨deriv, hr, by rw [sentence_eq hb.tabulated hs, hk]⟩

end Tree

end TreeLint
