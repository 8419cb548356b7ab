import TreeLint.Proofs.ListedProblems
import TreeLint.Proofs.Sentences

/-!
# Nodes over faults

What a parse could not use stands in the tree under nodes of two kinds: the tokens of each gap that the selected
derivation crosses under an `error` node, and the unparsed rest under an `unparsed` node. These nodes come in the order of
their tokens, and each reaches from the first of its tokens to the last.

* `Forest.faults`: the positions of the tokens below such nodes;
* `Draft.tokensUnderAll_ofForest`: the nodes of the drafts of a forest have these tokens;
* `Layout.rangesOf_root`: laying the drafts out gives the nodes the ranges of their tokens;
* `Tree.map_range_find`: these are the ranges of the nodes of the tree.
-/

namespace TreeLint

open List Grammar

open Chart (Gap gapsBetween)

def Forest.faults (forest : Forest) (kind : String) : List Gap :=
  (if kind == errorKind then (forest.root?.map Derivation.gaps).getD [] else []) ++
    if kind == unparsedKind then forest.unparsedFrom.toList.map fun start => ⟨start, forest.significant.size⟩
    else []

/-! ## Drafts -/

namespace Draft

variable {kind : String} {g : Grammar} {significant : Array Nat}

mutual

/-- The tokens below each node of a kind, in preorder. -/
def tokensUnder (kind : String) : Draft → List (List Nat)
  | .leaf _ => []
  | .node name children => (if name == kind then [tokensOfAll children] else []) ++ tokensUnderAll kind children

def tokensUnderAll (kind : String) : List Draft → List (List Nat)
  | [] => []
  | child :: children => tokensUnder kind child ++ tokensUnderAll kind children

end

private theorem tokensUnderAll_append (drafts more : List Draft) :
    tokensUnderAll kind (drafts ++ more) = tokensUnderAll kind drafts ++ tokensUnderAll kind more := by
  induction drafts with
  | nil => rfl
  | cons draft drafts ih => rw [cons_append, tokensUnderAll, tokensUnderAll, ih, append_assoc]

private theorem tokensUnderAll_map_leaf (places : List Nat) : tokensUnderAll kind (places.map .leaf) = [] := by
  induction places with
  | nil => rfl
  | cons place places ih => exact ih

private theorem tokensUnderAll_fault (name : String) (start stop : Nat) :
    tokensUnderAll kind [.node name (leaves significant start stop)] =
      if name == kind then [placesBetween significant start stop] else [] := by
  rw [tokensUnderAll, tokensUnderAll, tokensUnder, tokensOfAll_leaves, leaves, tokensUnderAll_map_leaf, append_nil,
    append_nil]

private theorem tokensUnderAll_wrap {name : String} (hn : g.isInline name = false → name ≠ kind)
    (children : List Draft) : tokensUnderAll kind (wrap g name children) = tokensUnderAll kind children := by
  unfold wrap
  split
  · rfl
  next hi =>
    split
    · rfl
    · have hne := hn (by simpa using hi)
      rw [tokensUnderAll, tokensUnderAll, tokensUnder, if_neg (by simpa using hne), nil_append, append_nil]

/-- If the kind is not that of a production, its nodes in the draft of a derivation stand over the gaps. -/
private theorem tokensUnderAll_ofDerivation (hn : ∀ name, g.isInline name = false → name ≠ kind)
    (deriv : Derivation) : tokensUnderAll kind (ofDerivation g significant deriv) =
      (if kind == errorKind then deriv.gaps else []).map fun gap =>
        placesBetween significant gap.start gap.stop := by
  have hp : ∀ {parts : List Derivation}, (∀ part ∈ parts, tokensUnderAll kind (ofDerivation g significant part) =
        (if kind == errorKind then part.gaps else []).map fun gap =>
          placesBetween significant gap.start gap.stop) →
      tokensUnderAll kind (ofDerivations g significant parts) =
        (if kind == errorKind then Derivation.gapsOfAll parts else []).map fun gap =>
          placesBetween significant gap.start gap.stop := by
    intro parts hp
    induction parts with
    | nil =>
      rw [Derivation.gapsOfAll, ite_self]
      rfl
    | cons part parts ih =>
      rw [forall_mem_cons] at hp
      rw [ofDerivations, tokensUnderAll_append, hp.1, ih hp.2, Derivation.gapsOfAll]
      split
      · rw [map_append]
      · rfl
  induction deriv using Derivation.induction with
  | token pos =>
    rw [Derivation.gaps, ite_self]
    rfl
  | phrase name start stop parts ih | empty name pos parts ih =>
    rw [ofDerivation, tokensUnderAll_wrap (hn name)]
    exact hp ih
  | skipped start stop =>
    rw [ofDerivation, tokensUnderAll_fault, Derivation.gaps, Bool.beq_comm]
    split <;> rfl

/-- If the kind is not that of a production, its nodes in the drafts of a forest stand over faults. -/
theorem tokensUnderAll_ofForest {forest : Forest} (hn : ∀ name, forest.grammar.isInline name = false → name ≠ kind) :
    tokensUnderAll kind (ofForest forest) =
      (forest.faults kind).map fun gap => placesBetween forest.significant gap.start gap.stop := by
  have hp : tokensUnderAll kind ((forest.root?.map (ofDerivation forest.grammar forest.significant)).getD []) =
      (if kind == errorKind then (forest.root?.map Derivation.gaps).getD [] else []).map fun gap =>
        placesBetween forest.significant gap.start gap.stop := by
    cases forest.root? with
    | none =>
      rw [Option.map_none, Option.map_none, Option.getD_none, Option.getD_none, ite_self]
      rfl
    | some deriv => exact tokensUnderAll_ofDerivation hn deriv
  rw [ofForest_eq, tokensUnderAll_append, hp, Forest.faults, map_append]
  congr 1
  cases forest.unparsedFrom with
  | none =>
    rw [Option.map_none, Option.getD_none, Option.toList_none, map_nil, ite_self]
    rfl
  | some start =>
    rw [Option.map_some, Option.getD_some, tokensUnderAll_fault, Bool.beq_comm]
    split <;> rfl

/-- The first and the last of the places from one position to another. -/
private theorem ends_placesBetween {start stop : Nat} (hlt : start < stop) (hs : stop ≤ significant.size) :
    ends (placesBetween significant start stop) =
      some (significant.getD start 0, significant.getD (stop - 1) 0) := by
  obtain ⟨last, rfl⟩ : ∃ last, stop = last + 1 := ⟨stop - 1, by omega⟩
  rw [Nat.add_sub_cancel]
  rcases Nat.eq_or_lt_of_le (Nat.le_of_lt_succ hlt) with rfl | hb
  · rw [placesBetween_succ (by omega)]
    rfl
  · rw [← placesBetween_append (Nat.le_succ start) (by omega : start + 1 ≤ last + 1),
      ← placesBetween_append (by omega : start + 1 ≤ last) (Nat.le_succ last), placesBetween_succ (by omega),
      placesBetween_succ (by omega), ends_append, ends_append]
    cases ends (placesBetween significant (start + 1) last) <;> rfl

end Draft

/-! ## Layouts -/

namespace Layout

variable {kind : String} {tokens : Array Token}

mutual

/-- The ranges of the nodes of a kind, in preorder. -/
def rangesOf (kind : String) : Layout → List (Nat × Nat)
  | .leaf _ _ _ => []
  | .node name start stop children => (if name == kind then [(start, stop)] else []) ++ rangesOfAll kind children

def rangesOfAll (kind : String) : List Layout → List (Nat × Nat)
  | [] => []
  | child :: children => rangesOf kind child ++ rangesOfAll kind children

end

private theorem rangesOfAll_append (layouts more : List Layout) :
    rangesOfAll kind (layouts ++ more) = rangesOfAll kind layouts ++ rangesOfAll kind more := by
  induction layouts with
  | nil => rfl
  | cons layout layouts ih => rw [cons_append, rangesOfAll, rangesOfAll, ih, append_assoc]

private theorem rangesOfAll_trivia (start stop : Nat) : rangesOfAll kind (trivia tokens start stop) = [] := by
  rw [trivia]
  induction List.range' start (stop - start) with
  | nil => rfl
  | cons place places ih => exact ih

def rangeOf (tokens : Array Token) (places : List Nat) : Nat × Nat :=
  match Draft.ends places with
  | some (first, last) => ((tokens.getD first default).start, (tokens.getD last default).stop)
  | none => (0, 0)

private theorem rangeOf_of_ends {places : List Nat} {first last : Nat} (h : Draft.ends places = some (first, last)) :
    rangeOf tokens places = ((tokens.getD first default).start, (tokens.getD last default).stop) := by
  rw [rangeOf, h]

/-- A draft whose nodes of a kind all have tokens gets the ranges of these tokens, if it is put over its own. -/
def Fitting (kind : String) (tokens : Array Token) (draft : Draft) : Prop :=
  (∀ places ∈ draft.tokensUnder kind, places ≠ []) → ∀ start stop,
    (draft.tokens ≠ [] → (start, stop) = rangeOf tokens draft.tokens) →
      rangesOf kind (place tokens start stop draft) = (draft.tokensUnder kind).map (rangeOf tokens)

private theorem rangesOfAll_placeAll_of {drafts : List Draft} (h : ∀ draft ∈ drafts, Fitting kind tokens draft)
    (ht : ∀ places ∈ Draft.tokensUnderAll kind drafts, places ≠ []) (cursor : Nat) (last : Option Nat) :
    rangesOfAll kind (placeAll tokens cursor last drafts) =
      (Draft.tokensUnderAll kind drafts).map (rangeOf tokens) := by
  induction drafts generalizing cursor last with
  | nil => rfl
  | cons draft drafts ih =>
    rw [forall_mem_cons] at h
    rw [Draft.tokensUnderAll, forall_mem_append] at ht
    have hh := h.1 ht.1
    have hr := ih h.2 ht.2
    have he := draft.bounds_eq
    rw [placeAll, Draft.tokensUnderAll, map_append]
    cases hb : draft.bounds with
    | none =>
      rw [hb] at he
      simp only
      rw [rangesOfAll, hr, hh]
      exact fun hs => absurd (Draft.ends_eq_none_iff.1 he.symm) hs
    | some bounds =>
      obtain ⟨first, final⟩ := bounds
      rw [hb] at he
      replace hh := hh _ _ fun _ => (rangeOf_of_ends he.symm).symm
      cases last with
      | none =>
        simp only [nil_append]
        rw [rangesOfAll, hh, hr]
      | some last =>
        simp only
        rw [rangesOfAll_append, rangesOfAll_trivia, nil_append, rangesOfAll, hh, hr]

private theorem fitting (draft : Draft) : Fitting kind tokens draft := by
  induction draft using Draft.induction with
  | leaf token => exact fun _ _ _ _ => rfl
  | node name children ih =>
    intro ht start stop hr
    rw [Draft.tokensUnder, forall_mem_append] at ht
    rw [place, rangesOf, Draft.tokensUnder, map_append, rangesOfAll_placeAll_of ih ht.2]
    congr 1
    split
    next hn =>
      rw [if_pos hn] at ht
      rw [hr (ht.1 _ mem_cons_self)]
      rfl
    · rfl

theorem rangesOf_root (hk : documentKind ≠ kind) {drafts : List Draft}
    (ht : ∀ places ∈ Draft.tokensUnderAll kind drafts, places ≠ []) (size : Nat) :
    rangesOf kind (root tokens size drafts) = (Draft.tokensUnderAll kind drafts).map (rangeOf tokens) := by
  have ha : ∀ {all : List Draft}, Draft.tokensUnderAll kind all = Draft.tokensUnderAll kind drafts →
      rangesOfAll kind (placeAll tokens 0 none all) = (Draft.tokensUnderAll kind drafts).map (rangeOf tokens) := by
    intro all heq
    rw [← heq] at ht ⊢
    exact rangesOfAll_placeAll_of (fun draft _ => fitting draft) ht 0 none
  rw [root, rangesOf, if_neg (by simpa using hk), nil_append]
  refine ha ?_
  cases Draft.boundsOfAll drafts <;> simp [Draft.tokensUnderAll_append, Draft.tokensUnderAll_map_leaf]

/-! ## Nodes of trees -/

variable {tree : Tree} {parent : Option Nat} {id : Nat} {layout : Layout}

private theorem FiledAll.map_range {layouts : List Layout} {above first : Nat} (h : FiledAll tree above first layouts)
    (ha : ∀ layout ∈ layouts, ∀ parent id, Filed tree parent id layout →
      ((List.range' id layout.size).filter fun number => (tree.node number).kind == kind).map tree.range =
        layout.rangesOf kind) :
    ((List.range' first (sizeOfAll layouts)).filter fun number => (tree.node number).kind == kind).map tree.range =
      rangesOfAll kind layouts := by
  induction layouts generalizing first with
  | nil => rfl
  | cons layout layouts ih =>
    rw [forall_mem_cons] at ha
    rw [sizeOfAll, ← range'_append_1, filter_append, map_append, ha.1 _ _ h.1, ih h.2 ha.2, rangesOfAll]

private theorem Filed.map_range (hl : ∀ place, (tree.tokens.getD place default).kind ≠ kind)
    (h : Filed tree parent id layout) :
    ((List.range' id layout.size).filter fun number => (tree.node number).kind == kind).map tree.range =
      layout.rangesOf kind := by
  induction layout using Layout.induction generalizing parent id with
  | leaf token start stop =>
    have hk : (tree.node id).kind = (tree.tokens.getD token default).kind := by
      rw [h.node_eq]
      rfl
    rw [size, range'_one, filter_cons_of_neg (by simpa [hk] using hl token)]
    rfl
  | node name start stop children ih =>
    have hk : (tree.node id).kind = name := by
      rw [h.node_eq]
      rfl
    have hr : tree.range id = (start, stop) := by
      rw [Tree.range, h.node_eq]
      rfl
    rw [size, range'_succ, filter_cons, rangesOf, hk, ← FiledAll.map_range h.2 fun child hc _ _ hf => ih child hc hf]
    split
    · rw [map_cons, hr]
      rfl
    · rfl

end Layout

namespace Forest

variable {desc : Description} {g : Grammar} {tokens : List Token} {cfg : Config} {kind : String}

/-! ## Faults of forests -/

def rangeBetween (tokens : Array Token) (gap : Gap) : Nat × Nat :=
  ((tokens.getD gap.start default).start, (tokens.getD (gap.stop - 1) default).stop)

theorem faults_errorKind (hg : g.Tabulated) (tokens : List Token) (cfg : Config) :
    (parse g tokens cfg).faults errorKind =
      gapsBetween (parse g tokens cfg).chart.gaps 0 ((parse g tokens cfg).parsed.getD 0) := by
  rw [faults, if_pos (by decide), if_neg (by decide), append_nil, gaps_root hg]

theorem faults_unparsedKind (forest : Forest) : forest.faults unparsedKind =
    forest.unparsedFrom.toList.map fun start => ⟨start, forest.significant.size⟩ := by
  rw [faults, if_neg (by decide), if_pos (by decide), nil_append]

theorem size_significant (g : Grammar) (tokens : List Token) (cfg : Config) :
    (parse g tokens cfg).significant.size = (meaningful tokens).size := by
  rw [(parse_keepsake g tokens cfg).significant_eq, ← size_meaningfulKinds, ← Draft.length_significantPlaces]
  rfl

theorem faults_proper (hg : g.Tabulated) {gap : Gap} (hgp : gap ∈ (parse g tokens cfg).faults kind) :
    gap.start < gap.stop ∧ gap.stop ≤ (meaningful tokens).size := by
  rw [faults, gaps_root hg, size_significant] at hgp
  rcases mem_append.1 hgp with hgp | hgp
  · split at hgp
    · obtain ⟨hlt, hs, -⟩ := (faithful_parse hg tokens cfg).gap_blocked gap (mem_filter.1 hgp).1
      rw [size_meaningfulKinds] at hs
      omega
    · cases hgp
  · split at hgp
    · obtain ⟨start, hst, rfl⟩ := mem_map.1 hgp
      rw [Option.mem_toList] at hst
      obtain ⟨ending, hr⟩ := parse_reported hg tokens cfg
      cases hr with
      | complete _ hu =>
        rw [hu] at hst
        cases hst
      | partly _ hu hl =>
        rw [hu] at hst
        split at hst
        · cases hst
        next hso =>
          cases hst
          rw [beq_iff_eq] at hso
          exact ⟨hl (by omega), Nat.le_refl _⟩
    · cases hgp

private theorem rangeOf_placesBetween (tokens : List Token) {gap : Gap} (hlt : gap.start < gap.stop)
    (hs : gap.stop ≤ (meaningful tokens).size) :
    Layout.rangeOf tokens.toArray (Draft.placesBetween (Draft.significantPlaces tokens).toArray gap.start gap.stop) =
      rangeBetween (meaningful tokens) gap := by
  have hsz : gap.stop ≤ (Draft.significantPlaces tokens).toArray.size := by
    rwa [size_toArray, Draft.length_significantPlaces, size_meaningfulKinds]
  rw [Layout.rangeOf_of_ends (Draft.ends_placesBetween hlt hsz), Draft.getD_significantPlaces tokens (by omega),
    Draft.getD_significantPlaces tokens (by omega)]
  rfl

end Forest

/-! ## Faulty nodes of trees -/

namespace Tree

variable {desc : Description} {g : Grammar} {src : Source} {kind : String}

private theorem find_eq (hg : g.Tabulated) (hs : src.Coherent) (path : String) (cfg : Config)
    (hk : kind ∈ g.kinds) : (parse g src path cfg).find kind =
      (List.range' 0 (parse g src path cfg).size).filter fun id =>
        ((parse g src path cfg).node id).kind == kind := by
  obtain ⟨cut, hgr⟩ := grown_parse hg hs path cfg
  have hgra : (parse g src path cfg).grammar = g :=
    (Forest.parse_keepsake g (tokenize g src) cfg).grammar_eq
  rw [find, hgra, kindId?_eq_some_kindId hk]
  simp only [ofKind, range_eq_range']
  refine filter_congr fun id hid => ?_
  rw [hgr.kindId_eq (by simpa using hid), hgra, Bool.eq_iff_iff, beq_iff_eq, beq_iff_eq, Int.natCast_inj,
    eq_comm, @eq_comm _ _ kind]
  exact idxOf_inj hk

/-- Only what no rule matches has a reserved kind, so no token stands for a fault. -/
private theorem kind_ne_of_isFaulty (hb : Built desc g) (hk : isFaulty kind = true)
    (place : Nat) : ((tokenize g src).toArray.getD place default).kind ≠ kind := by
  rw [isFaulty, Bool.or_eq_true, beq_iff_eq, beq_iff_eq] at hk
  rintro rfl
  by_cases hp : place < (tokenize g src).toArray.size
  · have hr : ((tokenize g src).toArray.getD place default).kind ∈ reservedKinds := by
      rcases hk with hk | hk <;> rw [hk] <;> decide
    rcases kind_of_mem_reservedKinds hb (getD_mem hp) hr with hbl | ⟨hu, -⟩
    · rw [hbl] at hk
      exact absurd hk (by decide)
    · rw [hu] at hk
      exact absurd hk (by decide)
  · rw [Array.getD_eq_getD_getElem?, Array.getElem?_eq_none (Nat.le_of_not_lt hp), Option.getD_none] at hk
    exact absurd hk (by decide)

/-- The nodes of a faulty kind stand over the faults of the forest, in order. -/
theorem map_range_find (hb : Built desc g) (hs : src.Coherent) (path : String)
    (cfg : Config) (hk : isFaulty kind = true) :
    ((parse g src path cfg).find kind).map (parse g src path cfg).range =
      ((Forest.parse g (tokenize g src) cfg).faults kind).map
        (Forest.rangeBetween (Forest.meaningful (tokenize g src))) := by
  have hkp := Forest.parse_keepsake g (tokenize g src) cfg
  have ht : (parse g src path cfg).tokens = (tokenize g src).toArray := hkp.tokens_eq
  have hr : kind ∈ g.kinds ∧ documentKind ≠ kind := by
    rw [isFaulty, Bool.or_eq_true, beq_iff_eq, beq_iff_eq] at hk
    rw [hb.mem_kinds_iff]
    rcases hk with rfl | rfl <;> exact ⟨.inl (by decide), by decide⟩
  have hu : Draft.tokensUnderAll kind (Draft.ofForest (Forest.parse g (tokenize g src) cfg)) =
      ((Forest.parse g (tokenize g src) cfg).faults kind).map fun gap => Draft.placesBetween
        (Draft.significantPlaces (tokenize g src)).toArray gap.start gap.stop := by
    rw [Draft.tokensUnderAll_ofForest, hkp.significant_eq]
    · rfl
    · rw [hkp.grammar_eq]
      rintro name hi rfl
      exact Bool.false_ne_true ((hb.isFaulty_eq_false hi).symm.trans hk)
  obtain ⟨cut, hg⟩ := grown_parse hb.tabulated hs path cfg
  rw [find_eq hb.tabulated hs path cfg hr.1, hg.size_eq,
    hg.filed.map_range (by rw [ht]; exact kind_ne_of_isFaulty hb hk), hkp.tokens_eq,
    Layout.rangesOf_root hr.2, hu, map_map]
  · refine map_congr_left fun gap hgp => ?_
    obtain ⟨hlt, hst⟩ := Forest.faults_proper hb.tabulated hgp
    exact Forest.rangeOf_placesBetween _ hlt hst
  · intro places hp
    rw [hu] at hp
    obtain ⟨gap, hgp, rfl⟩ := mem_map.1 hp
    obtain ⟨hlt, hst⟩ := Forest.faults_proper hb.tabulated hgp
    intro hn
    have hsz : gap.stop ≤ (Draft.significantPlaces (tokenize g src)).toArray.size := by
      rwa [size_toArray, Draft.length_significantPlaces, Forest.size_meaningfulKinds]
    have he := Draft.ends_placesBetween hlt hsz
    rw [hn] at he
    cases he

end Tree

end TreeLint
