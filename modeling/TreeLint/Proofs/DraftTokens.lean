import TreeLint.Proofs.Acceptance
import TreeLint.Tree.Draft

/-!
# Tokens of drafts

* `Draft.tokens`: the tokens of a draft from left to right; `Draft.bounds` gives the first and the last of them;
* `tokensOfAll_ofDerivation`: the draft of a valid derivation has the significant tokens of its range;
* `tokensOfAll_ofForest`: the drafts of a parsed forest have all significant tokens, whether they were parsed, skipped
  or left unparsed;
* `ofForest_of_row`: the draft of a row of tokens.
-/

namespace TreeLint

open List Forest

variable {places : List Nat} {pos first last : Nat}

namespace Draft

mutual

def tokens : Draft → List Nat
  | .leaf token => [token]
  | .node _ children => tokensOfAll children

def tokensOfAll : List Draft → List Nat
  | [] => []
  | child :: children => tokens child ++ tokensOfAll children

end

/-- What holds of leaves, and of a node if it holds of its children, holds of all drafts. -/
theorem induction {motive : Draft → Prop} (leaf : ∀ token, motive (.leaf token))
    (node : ∀ kind children, (∀ child ∈ children, motive child) → motive (.node kind children)) (draft : Draft) :
    motive draft :=
  @Draft.rec motive (fun drafts => ∀ draft ∈ drafts, motive draft) leaf node (forall_mem_nil _)
    (fun _ _ hf hr _ hm => (mem_cons.1 hm).elim (fun heq => heq ▸ hf) (hr _)) draft

theorem tokensOfAll_append (drafts more : List Draft) :
    tokensOfAll (drafts ++ more) = tokensOfAll drafts ++ tokensOfAll more := by
  induction drafts with
  | nil => rfl
  | cons draft drafts ih => rw [cons_append, tokensOfAll, tokensOfAll, ih, append_assoc]

theorem tokens_sublist {draft : Draft} {drafts : List Draft} (h : draft ∈ drafts) :
    List.Sublist draft.tokens (tokensOfAll drafts) := by
  induction drafts with
  | nil => cases h
  | cons first drafts ih =>
    rcases mem_cons.1 h with rfl | h
    · exact sublist_append_left _ _
    · exact (ih h).trans (sublist_append_right _ _)

theorem tokensOfAll_map_leaf (places : List Nat) : tokensOfAll (places.map .leaf) = places := by
  induction places with
  | nil => rfl
  | cons place places ih => rw [map_cons, tokensOfAll, ih, tokens, singleton_append]

/-! ## Bounds -/

def ends : List Nat → Option (Nat × Nat)
  | [] => none
  | first :: rest =>
    match ends rest with
    | none => some (first, first)
    | some (_, last) => some (first, last)

private theorem ends_cons (first : Nat) (rest : List Nat) : ∃ last, ends (first :: rest) = some (first, last) := by
  rw [ends]
  split <;> exact ⟨_, rfl⟩

theorem ends_eq_none_iff : ends places = none ↔ places = [] := by
  cases places with
  | nil => simp [ends]
  | cons first rest =>
    obtain ⟨last, h⟩ := ends_cons first rest
    simp [h]

theorem head?_of_ends (h : ends places = some (first, last)) : places.head? = some first := by
  cases places with
  | nil => cases h
  | cons found rest =>
    obtain ⟨final, heq⟩ := ends_cons found rest
    rw [heq] at h
    cases h
    rfl

theorem last_mem_of_ends (h : ends places = some (first, last)) : last ∈ places := by
  induction places generalizing first with
  | nil => cases h
  | cons found rest ih =>
    rw [ends] at h
    split at h
    · cases h
      exact mem_cons_self
    next heq =>
      cases h
      exact mem_cons_of_mem _ (ih heq)

theorem getLast?_of_ends (h : ends places = some (first, last)) : places.getLast? = some last := by
  induction places generalizing first with
  | nil => cases h
  | cons found rest ih =>
    rw [ends] at h
    split at h
    next hn =>
      cases h
      rw [ends_eq_none_iff.1 hn]
      rfl
    next hs =>
      cases h
      rw [getLast?_cons, ih hs, Option.getD_some]

theorem le_of_head? (hs : places.Pairwise (· < ·)) (hf : places.head? = some first) :
    ∀ place ∈ places, first ≤ place := by
  cases places with
  | nil => cases hf
  | cons found rest =>
    cases hf
    intro place hp
    rcases mem_cons.1 hp with rfl | hp
    · exact Nat.le_refl _
    · exact Nat.le_of_lt ((pairwise_cons.1 hs).1 place hp)

theorem le_of_ends (hs : places.Pairwise (· < ·)) (he : ends places = some (first, last)) :
    ∀ place ∈ places, place ≤ last := by
  induction places generalizing first with
  | nil => cases he
  | cons found rest ih =>
    obtain ⟨hf, hs⟩ := pairwise_cons.1 hs
    rw [ends] at he
    intro place hp
    split at he
    next hn =>
      cases he
      rw [ends_eq_none_iff.1 hn, mem_singleton] at hp
      exact Nat.le_of_eq hp
    next hso =>
      cases he
      rcases mem_cons.1 hp with rfl | hp
      · exact Nat.le_of_lt (hf last (last_mem_of_ends hso))
      · exact ih hs hso place hp

/-- The ends of two rows are the first of the one and the last of the other. -/
theorem ends_append (places more : List Nat) : ends (places ++ more) = match ends places, ends more with
    | none, rest => rest
    | some here, none => some here
    | some (first, _), some (_, last) => some (first, last) := by
  induction places with
  | nil => rfl
  | cons first places ih =>
    rw [cons_append, ends, ih, ends]
    cases ends places <;> cases ends more <;> rfl

private theorem boundsOfAll_eq_of {drafts : List Draft} (h : ∀ draft ∈ drafts, draft.bounds = ends draft.tokens) :
    boundsOfAll drafts = ends (tokensOfAll drafts) := by
  induction drafts with
  | nil => rfl
  | cons draft drafts ih =>
    rw [tokensOfAll, ends_append, ← h draft mem_cons_self, ← ih (forall_mem_cons.1 h).2]
    rfl

theorem bounds_eq (draft : Draft) : draft.bounds = ends draft.tokens := by
  induction draft using Draft.induction with
  | leaf token => rfl
  | node kind children ih => exact boundsOfAll_eq_of ih

/-- The bounds of drafts are the ends of the tokens under them. -/
theorem boundsOfAll_eq (drafts : List Draft) : boundsOfAll drafts = ends (tokensOfAll drafts) :=
  boundsOfAll_eq_of fun draft _ => draft.bounds_eq

/-! ## Drafts of derivations -/

variable {g : Grammar} {kinds : Array String} {gaps : List Chart.Gap} {significant : Array Nat}

def placesBetween (significant : Array Nat) (start stop : Nat) : List Nat :=
  (significant.extract start stop).toList

theorem tokensOfAll_leaves (start stop : Nat) :
    tokensOfAll (leaves significant start stop) = placesBetween significant start stop :=
  tokensOfAll_map_leaf _

private theorem placesBetween_self (pos : Nat) : placesBetween significant pos pos = [] := by
  simp [placesBetween]

theorem placesBetween_succ (h : pos < significant.size) :
    placesBetween significant pos (pos + 1) = [significant.getD pos 0] := by
  simp only [placesBetween, Array.toList_extract, extract_eq_take_drop, Nat.add_sub_cancel_left]
  rw [drop_eq_getElem_cons (by simpa using h)]
  simp [h]

theorem placesBetween_append {start middle stop : Nat} (hs : start ≤ middle) (hst : middle ≤ stop) :
    placesBetween significant start middle ++ placesBetween significant middle stop =
      placesBetween significant start stop := by
  rw [placesBetween, placesBetween, placesBetween, ← Array.toList_append, Array.extract_append_extract,
    Nat.min_eq_left hs, Nat.max_eq_right hst]

private theorem tokensOfAll_wrap (g : Grammar) (name : String) (children : List Draft) :
    tokensOfAll (wrap g name children) = tokensOfAll children := by
  unfold wrap
  split
  · rfl
  · split
    · rfl
    · rw [tokensOfAll, tokensOfAll, tokens, append_nil]

private theorem tokensOfAll_ofDerivations {start stop : Nat} {parts : List Derivation}
    (ha : Derivation.Adjacent start stop parts) (hv : ∀ part ∈ parts, part.Valid g kinds gaps)
    (hp : ∀ part ∈ parts, tokensOfAll (ofDerivation g significant part) =
      placesBetween significant part.start part.stop) :
    start ≤ stop ∧ tokensOfAll (ofDerivations g significant parts) = placesBetween significant start stop := by
  induction ha with
  | nil => exact ⟨Nat.le_refl _, (placesBetween_self _).symm⟩
  | @cons part parts stop _ ih =>
    obtain ⟨hle, hr⟩ := ih (forall_mem_cons.1 hv).2 (forall_mem_cons.1 hp).2
    have hpr := (hv part mem_cons_self).start_le_stop
    refine ⟨Nat.le_trans hpr hle, ?_⟩
    rw [ofDerivations, tokensOfAll_append, hp part mem_cons_self, hr, placesBetween_append hpr hle]

/-- The drafts of a derivation hold the tokens that it stands over. -/
theorem tokensOfAll_ofDerivation {deriv : Derivation} (h : deriv.Valid g kinds gaps)
    (hs : kinds.size = significant.size) : tokensOfAll (ofDerivation g significant deriv) =
      placesBetween significant deriv.start deriv.stop := by
  induction h with
  | @token pos hlt =>
    rw [hs] at hlt
    exact (placesBetween_succ hlt).symm
  | phrase _ _ hf hv ih | empty _ hf hv ih =>
    rw [ofDerivation, tokensOfAll_wrap]
    exact (tokensOfAll_ofDerivations hf.adjacent hv ih).2
  | skipped =>
    rw [ofDerivation, tokensOfAll, tokensOfAll, tokens, append_nil, tokensOfAll_leaves]
    rfl

/-! ## Drafts of forests -/

def significantPlaces (tokens : List Token) : List Nat :=
  (tokens.zipIdx.filter fun entry => !entry.1.trivia).map (·.2)

theorem length_significantPlaces (tokens : List Token) :
    (significantPlaces tokens).length = (meaningfulKinds tokens).size := by
  have hc : ∀ start, ((tokens.zipIdx start).filter fun entry => !entry.1.trivia).length =
      (tokens.filter fun token => !token.trivia).length := by
    induction tokens with
    | nil => exact fun _ => rfl
    | cons token tokens ih =>
      intro start
      rw [zipIdx_cons, filter_cons, filter_cons]
      split <;> simp [ih]
  rw [significantPlaces, length_map, hc, size_meaningfulKinds, meaningful, size_toArray]

theorem pairwise_significantPlaces (tokens : List Token) : (significantPlaces tokens).Pairwise (· < ·) := by
  have hs : List.Sublist (significantPlaces tokens) (tokens.zipIdx.map (·.2)) :=
    List.Sublist.map _ filter_sublist
  rw [zipIdx_map_snd] at hs
  exact List.Pairwise.sublist hs pairwise_lt_range'

theorem lt_of_mem_significantPlaces {tokens : List Token} {place : Nat} (h : place ∈ significantPlaces tokens) :
    place < tokens.length := by
  obtain ⟨entry, he, rfl⟩ := mem_map.1 h
  have := snd_lt_of_mem_zipIdx (mem_filter.1 he).1
  omega

private theorem getD_of_mem_zipIdx {tokens : List Token} {entry : Token × Nat} (h : entry ∈ tokens.zipIdx) :
    tokens.toArray.getD entry.2 default = entry.1 := by
  rw [Array.getD_eq_getD_getElem?, getElem?_toArray, mem_zipIdx_iff_getElem?.1 h, Option.getD_some]

/-- The significant places are those of the tokens that are no trivia. -/
theorem significantPlaces_eq_filter (tokens : List Token) : significantPlaces tokens =
    (List.range' 0 tokens.toArray.size).filter fun place => !(tokens.toArray.getD place default).trivia := by
  rw [size_toArray, ← zipIdx_map_snd 0 tokens, filter_map, significantPlaces]
  refine congrArg (List.map _) (filter_congr fun entry he => ?_)
  rw [Function.comp_apply, getD_of_mem_zipIdx he]

theorem map_significantPlaces (tokens : List Token) :
    (significantPlaces tokens).map (fun place => tokens.toArray.getD place default) =
      (meaningful tokens).toList := by
  rw [meaningful, significantPlaces, map_map]
  nth_rewrite 3 [← zipIdx_map_fst 0 tokens]
  rw [filter_map]
  refine map_congr_left fun entry he => ?_
  rw [Function.comp_apply, getD_of_mem_zipIdx (mem_filter.1 he).1]

theorem getD_significantPlaces (tokens : List Token) (h : pos < (meaningful tokens).size) :
    tokens.toArray.getD ((significantPlaces tokens).toArray.getD pos 0) default =
      (meaningful tokens).getD pos default := by
  have hp : pos < (significantPlaces tokens).length := by
    rwa [length_significantPlaces, size_meaningfulKinds]
  have heq := congrArg (·[pos]?) (map_significantPlaces tokens)
  simp only [getElem?_map, getElem?_eq_getElem hp, Option.map_some, Array.getElem?_toList] at heq
  have hg : (significantPlaces tokens).toArray.getD pos 0 = (significantPlaces tokens)[pos] := by
    rw [Array.getD_eq_getD_getElem?, getElem?_toArray, getElem?_eq_getElem hp, Option.getD_some]
  rw [hg, @Array.getD_eq_getD_getElem? _ (meaningful tokens), ← heq, Option.getD_some]

theorem kind_significantPlaces (tokens : List Token) (h : pos < (meaningfulKinds tokens).size) :
    (tokens.toArray.getD ((significantPlaces tokens).toArray.getD pos 0) default).kind =
      (meaningfulKinds tokens).getD pos "" := by
  rw [size_meaningfulKinds] at h
  rw [getD_significantPlaces tokens h, meaningfulKinds]
  simp [Array.getD_eq_getD_getElem?, h]

theorem ofForest_eq (forest : Forest) : ofForest forest =
    (forest.root?.map (ofDerivation forest.grammar forest.significant)).getD [] ++ (forest.unparsedFrom.map fun start =>
        [.node Grammar.unparsedKind (leaves forest.significant start forest.significant.size)]).getD [] := by
  unfold ofForest
  cases forest.root? <;> cases forest.unparsedFrom <;> rfl

/-- No significant token is left out of the tree or comes twice. -/
theorem tokensOfAll_ofForest (hg : g.Tabulated) (tokens : List Token) (cfg : Config) :
    tokensOfAll (ofForest (Forest.parse g tokens cfg)) = significantPlaces tokens := by
  have hk := parse_keepsake g tokens cfg
  have hf := faithful_parse hg tokens cfg
  have ho := parse_outcome g tokens cfg
  have hr := @Forest.exists_root?_eq g tokens cfg
  generalize Forest.parse g tokens cfg = forest at *
  have hs : forest.significant = (significantPlaces tokens).toArray := hk.significant_eq
  have hsz : (meaningfulKinds tokens).size = forest.significant.size := by
    rw [hs, ← length_significantPlaces]
    rfl
  have hc : (meaningful tokens).size = forest.significant.size := by
    rw [← hsz, size_meaningfulKinds]
  have ha : significantPlaces tokens = placesBetween forest.significant 0 forest.significant.size := by
    rw [hs, placesBetween, Array.extract_size]
  have hp : tokensOfAll ((forest.root?.map (ofDerivation forest.grammar forest.significant)).getD []) =
      placesBetween forest.significant 0 (forest.parsed.getD 0) := by
    cases hst : forest.parsed with
    | none =>
      rw [root?_eq_none hst]
      exact (placesBetween_self 0).symm
    | some stop =>
      obtain ⟨deriv, heq, -, hd⟩ := hr hg hst
      rw [heq, hk.grammar_eq, Option.map_some, Option.getD_some,
        tokensOfAll_ofDerivation hd.valid hsz, hd.start_eq, hd.stop_eq, Option.getD_some]
  rw [ofForest_eq, tokensOfAll_append, hp, ha]
  rcases ho.unparsedFrom_eq hf with ⟨hu, hdn⟩ | hu
  · rw [hu, hdn, hc, Option.map_none, Option.getD_none, tokensOfAll, append_nil]
  · rw [hu, Option.map_some, Option.getD_some, tokensOfAll, tokensOfAll, Draft.tokens, append_nil, tokensOfAll_leaves]
    exact placesBetween_append (Nat.zero_le _) (hc ▸ ho.le hf)

private theorem exists_ofDerivations_eq {significant : Array Nat} {parts : List Derivation}
    (h : ∀ part ∈ parts, ∃ pos, part = .token pos) :
    ∃ places : List Nat, ofDerivations g significant parts = places.map .leaf := by
  induction parts with
  | nil => exact ⟨[], rfl⟩
  | cons part parts ih =>
    rw [forall_mem_cons] at h
    obtain ⟨pos, rfl⟩ := h.1
    obtain ⟨places, hp⟩ := ih h.2
    exact ⟨significant.getD pos 0 :: places, by rw [ofDerivations, hp, ofDerivation, map_cons, singleton_append]⟩

/-- Where the start symbol stands for one row of tokens and nothing else, the document has one node, and these tokens
are its children. -/
theorem ofForest_of_row {tokens : List Token} {row : List String} (hg : g.Tabulated) (cfg : Config)
    (hs : ∃ alt ∈ g.alternatives.toList, alt.lhs = g.start)
    (hrow : ∀ alt ∈ g.alternatives.toList, alt.lhs = g.start → alt.symbols = row.map .terminal)
    (ht : (tokens.filter fun token => !token.trivia).map (·.kind) = row) (hi : g.isInline g.start = false)
    (htr : g.isTransparent g.start = false) : (Forest.parse g tokens cfg).problems = [] ∧
      ofForest (Forest.parse g tokens cfg) = [.node g.start ((significantPlaces tokens).map .leaf)] := by
  have hgn : g.Generates g.start (meaningfulKinds tokens).toList := by
    obtain ⟨alt, ha, hl⟩ := hs
    rw [toList_meaningfulKinds, ht]
    exact Grammar.derives_singleton_iff.2 ⟨alt, ha, hl, hrow alt ha hl ▸ Grammar.derives_terminals row⟩
  have hk := parse_keepsake g tokens cfg
  obtain ⟨hgp, hst, ha⟩ := (faithful_parse hg tokens cfg).accepts_of_generates hg hgn
  have hn := (problems_eq_nil_iff g tokens cfg).2 ⟨hgp, hst, size_meaningfulKinds tokens ▸ ha⟩
  obtain ⟨hp, hu, -⟩ := complete_of_problems_eq_nil hg hn
  obtain ⟨deriv, hr, -, hd⟩ := exists_root?_eq hg hp
  have hv := hgp ▸ hd.valid
  have hs : ∃ places : List Nat, ofForest (Forest.parse g tokens cfg) = [.node g.start (places.map .leaf)] := by
    have hw (drafts : List Draft) : wrap g g.start drafts = [.node g.start drafts] := by simp [wrap, hi, htr]
    rw [ofForest_eq, hr, hu, hk.grammar_eq, Option.map_some, Option.getD_some, Option.map_none, Option.getD_none,
      append_nil]
    have hsy := hd.symbol_eq
    cases hv with
    | token | skipped => cases hsy
    | phrase hm _ hf hpv | empty hm hf hpv =>
      injection hsy with hsy
      injection hsy with hl
      rw [hrow _ hm hl] at hf
      obtain ⟨places, hpl⟩ := @exists_ofDerivations_eq g (Forest.parse g tokens cfg).significant _
        fun part hpa => hf.exists_token hpv hpa
      exact ⟨places, by rw [ofDerivation, hpl, hl, hw]⟩
  obtain ⟨places, hs⟩ := hs
  have hta := tokensOfAll_ofForest hg tokens cfg
  rw [hs, tokensOfAll, tokensOfAll, Draft.tokens, append_nil, tokensOfAll_map_leaf] at hta
  exact ⟨hn, by rw [hs, hta]⟩

end Draft

end TreeLint
