import Mathlib.Data.List.Chain
import TreeLint.Proofs.Arena

/-!
# Trees without trivia

A layout is a draft with trivia and ranges added to it. Taking both away again gives the draft back, so whoever looks at
the significant children only sees the draft.

* `Layout.exists_root_eq`: the root has trivia before and after the drafts, and between their tokens;
* `Layout.strip_root`: without trivia, the layout of drafts that have all significant tokens is a node over them;
* `Layout.Filed.map_significantChildren`: what is read off the significant children of a node is read off the children
  of its draft.
-/

namespace TreeLint

open List Draft

def meaningfulAt (tokens : Array Token) (place : Nat) : Bool :=
  !(tokens.getD place default).trivia

variable {drafts : List Draft} {places : List Nat}

namespace Draft

def children : Draft → List Draft
  | .leaf _ => []
  | .node _ children => children

def isMeaningful (tokens : Array Token) : Draft → Bool
  | .leaf token => meaningfulAt tokens token
  | .node _ _ => true

private theorem filter_isMeaningful_map_leaf {tokens : Array Token} (h : places.filter (meaningfulAt tokens) = []) :
    (places.map .leaf).filter (isMeaningful tokens) = [] := by
  rw [filter_map]
  exact map_eq_nil_iff.2 h

private theorem filter_isMeaningful_eq_self {tokens : Array Token}
    (h : ∀ place ∈ tokensOfAll drafts, meaningfulAt tokens place) :
    drafts.filter (isMeaningful tokens) = drafts := by
  refine filter_eq_self.2 fun draft hd => ?_
  cases draft with
  | leaf token => exact h token ((tokens_sublist hd).subset (mem_singleton_self token))
  | node kind children => rfl

end Draft

namespace Layout

variable {tokens : Array Token}

def isMeaningful (tokens : Array Token) : Layout → Bool
  | .leaf token _ _ => meaningfulAt tokens token
  | .node _ _ _ _ => true

mutual

/-- A layout without the trivia below it and without ranges. -/
def strip (tokens : Array Token) : Layout → Draft
  | .leaf token _ _ => .leaf token
  | .node kind _ _ children => .node kind (stripAll tokens children)

/-- Layouts without trivia and without ranges. -/
def stripAll (tokens : Array Token) : List Layout → List Draft
  | [] => []
  | child :: children =>
    if child.isMeaningful tokens then strip tokens child :: stripAll tokens children else stripAll tokens children

end

theorem strip_children (tokens : Array Token) (layout : Layout) :
    (layout.strip tokens).children = stripAll tokens layout.children := by
  cases layout <;> rfl

private theorem stripAll_append (tokens : Array Token) (layouts more : List Layout) :
    stripAll tokens (layouts ++ more) = stripAll tokens layouts ++ stripAll tokens more := by
  induction layouts with
  | nil => rfl
  | cons layout layouts ih =>
    rw [cons_append, stripAll, stripAll, ih]
    split <;> rfl

theorem strip_mem_stripAll {layouts : List Layout} {layout : Layout} (hl : layout ∈ layouts)
    (hm : layout.isMeaningful tokens) : layout.strip tokens ∈ stripAll tokens layouts := by
  induction layouts with
  | nil => cases hl
  | cons first layouts ih =>
    rw [stripAll]
    rcases mem_cons.1 hl with rfl | hl
    · rw [if_pos hm]
      exact mem_cons_self
    · split
      · exact mem_cons_of_mem _ (ih hl)
      · exact ih hl

/-! ## Places with nothing meaningful between them -/

section

variable {meaningful : Nat → Bool}

/-- Two places with nothing meaningful between them. -/
def Gapless (meaningful : Nat → Bool) (first last : Nat) : Prop :=
  ∀ place, first < place → place < last → meaningful place = false

private theorem filter_range'_eq_nil {first last : Nat} (h : Gapless meaningful first last) :
    (List.range' (first + 1) (last - (first + 1))).filter meaningful = [] := by
  rw [filter_eq_nil_iff]
  intro place hp
  rw [mem_range'_1] at hp
  rw [h place (by omega) (by omega)]
  exact Bool.false_ne_true

/-- Places in order that leave out nothing meaningful have nothing meaningful between them. -/
private theorem isChain_gapless (hs : places.Pairwise (· < ·))
    (ha : ∀ first ∈ places, ∀ last ∈ places, ∀ place, first < place → place < last → meaningful place →
      place ∈ places) : places.IsChain (Gapless meaningful) := by
  induction places with
  | nil => exact .nil
  | cons found rest ih =>
    obtain ⟨hf, hr⟩ := pairwise_cons.1 hs
    refine isChain_cons.2 ⟨fun next hn place hfr hl => ?_, ih hr ?_⟩
    · have hmm : next ∈ rest := mem_of_mem_head? hn
      by_contra hm
      have hp := ha found mem_cons_self next (mem_cons_of_mem _ hmm) place hfr hl (by simpa using hm)
      rcases mem_cons.1 hp with rfl | hp
      · exact Nat.lt_irrefl _ hfr
      · exact Nat.not_lt.2 (le_of_head? hr hn place hp) hl
    · intro first hfr last hl place hlt hgt hm
      have hp := ha first (mem_cons_of_mem _ hfr) last (mem_cons_of_mem _ hl) place hlt hgt hm
      rcases mem_cons.1 hp with rfl | hp
      · exact absurd (hf first hfr) (Nat.not_lt.2 (Nat.le_of_lt hlt))
      · exact hp

/-- Leaves without meaning in order around drafts that have all meaningful places leave nothing meaningful out. -/
private theorem isChain_around {before after : List Nat}
    (ht : Draft.tokensOfAll drafts = (List.range' 0 tokens.size).filter meaningful)
    (hs : (before ++ Draft.tokensOfAll drafts ++ after).Pairwise (· < ·))
    (hlt : ∀ place ∈ before ++ Draft.tokensOfAll drafts ++ after, place < tokens.size) :
    (before ++ Draft.tokensOfAll drafts ++ after).IsChain (Gapless meaningful) := by
  refine isChain_gapless hs fun first _ last hl place _ hp hm => ?_
  refine mem_append_left _ (mem_append_right _ ?_)
  rw [ht, mem_filter, mem_range'_1]
  have := hlt last hl
  exact ⟨by omega, hm⟩

theorem exists_root_eq (ht : Draft.tokensOfAll drafts = (List.range' 0 tokens.size).filter meaningful) (size : Nat) :
    ∃ before after : List Nat, root tokens size drafts = .node Grammar.documentKind 0 size
        (placeAll tokens 0 none (before.map .leaf ++ drafts ++ after.map .leaf)) ∧
      before.filter meaningful = [] ∧ after.filter meaningful = [] ∧
      (before ++ Draft.tokensOfAll drafts ++ after).IsChain (Gapless meaningful) := by
  have hs : (Draft.tokensOfAll drafts).Pairwise (· < ·) := by
    rw [ht]
    exact List.Pairwise.sublist filter_sublist pairwise_lt_range'
  have hmm : ∀ place, place < tokens.size → meaningful place → place ∈ Draft.tokensOfAll drafts := by
    intro place hp hm
    rw [ht, mem_filter, mem_range'_1]
    exact ⟨by omega, hm⟩
  have hb : ∀ place ∈ Draft.tokensOfAll drafts, place < tokens.size := by
    intro place hp
    rw [ht, mem_filter, mem_range'_1] at hp
    omega
  simp only [root, boundsOfAll_eq, Nat.sub_zero]
  -- without tokens below the drafts all leaves stand after them; otherwise some stand on either side
  cases he : Draft.ends (Draft.tokensOfAll drafts) with
  | none =>
    have hn := ends_eq_none_iff.1 he
    refine ⟨[], List.range' 0 tokens.size, rfl, rfl, by rw [← ht, hn], isChain_around ht ?_ ?_⟩
    · rw [hn]
      exact pairwise_lt_range'
    · intro place hp
      rw [hn] at hp
      simpa using hp
  | some bounds =>
    obtain ⟨first, last⟩ := bounds
    have hf := le_of_head? hs (head?_of_ends he)
    have hl := le_of_ends hs he
    have hle := hf last (last_mem_of_ends he)
    have hen := hb last (last_mem_of_ends he)
    refine ⟨List.range' 0 first, List.range' (last + 1) (tokens.size - (last + 1)), rfl, ?_, ?_,
      isChain_around ht ?_ ?_⟩
    -- what stands before the first token or after the last is not meaningful
    · refine filter_eq_nil_iff.2 fun place hp hm => ?_
      rw [mem_range'_1] at hp
      have := hf place (hmm place (by omega) hm)
      omega
    · refine filter_eq_nil_iff.2 fun place hp hm => ?_
      rw [mem_range'_1] at hp
      have := hl place (hmm place (by omega) hm)
      omega
    · rw [append_assoc, pairwise_append, pairwise_append]
      refine ⟨pairwise_lt_range', ⟨hs, pairwise_lt_range', ?_⟩, ?_⟩
      · intro place hp after ha
        have := hl place hp
        rw [mem_range'_1] at ha
        omega
      · intro before hbf place hp
        rw [mem_range'_1] at hbf
        rcases mem_append.1 hp with hp | hp
        · have := hf place hp
          omega
        · rw [mem_range'_1] at hp
          omega
    · intro place hp
      rcases mem_append.1 hp with hp | hp
      · rcases mem_append.1 hp with hp | hp
        · rw [mem_range'_1] at hp
          omega
        · exact hb place hp
      · rw [mem_range'_1] at hp
        omega

private theorem tokensOfAll_around (before after : List Nat) (drafts : List Draft) :
    Draft.tokensOfAll (before.map .leaf ++ drafts ++ after.map .leaf) =
      before ++ Draft.tokensOfAll drafts ++ after := by
  rw [tokensOfAll_append, tokensOfAll_append, tokensOfAll_map_leaf, tokensOfAll_map_leaf]

end

/-! ## Layouts of drafts -/

private theorem isMeaningful_place (start stop : Nat) (draft : Draft) :
    (place tokens start stop draft).isMeaningful tokens = draft.isMeaningful tokens := by
  cases draft <;> rfl

private theorem stripAll_map_ofToken (h : places.filter (meaningfulAt tokens) = []) :
    stripAll tokens (places.map (ofToken tokens)) = [] := by
  induction places with
  | nil => rfl
  | cons place places ih =>
    rw [filter_eq_nil_iff, forall_mem_cons, ← filter_eq_nil_iff] at h
    rw [map_cons, stripAll, ofToken, isMeaningful, if_neg h.1, ih h.2]

/-- Siblings with nothing meaningful between their tokens are found again, but for tokens without meaning. -/
private theorem stripAll_placeAll {drafts : List Draft}
    (hd : ∀ draft ∈ drafts, draft.tokens.IsChain (Gapless (meaningfulAt tokens)) → ∀ start stop,
      strip tokens (place tokens start stop draft) = draft) {last : Option Nat}
    (hc : (last.toList ++ Draft.tokensOfAll drafts).IsChain (Gapless (meaningfulAt tokens))) (cursor : Nat) :
    stripAll tokens (placeAll tokens cursor last drafts) = drafts.filter (Draft.isMeaningful tokens) := by
  induction drafts generalizing last cursor with
  | nil => rfl
  | cons draft drafts ih =>
    have hr := @ih (forall_mem_cons.1 hd).2
    have he := draft.bounds_eq
    rw [Draft.tokensOfAll] at hc
    obtain ⟨-, hi, hf⟩ := isChain_append.1 hc
    obtain ⟨hdr, ht, hb⟩ := isChain_append.1 hi
    have hh : ∀ start stop later, stripAll tokens later = drafts.filter (Draft.isMeaningful tokens) →
        stripAll tokens (place tokens start stop draft :: later) =
          (draft :: drafts).filter (Draft.isMeaningful tokens) := by
      intro start stop later hl
      rw [stripAll, isMeaningful_place, hd draft mem_cons_self hdr, hl, filter_cons]
    rw [placeAll]
    cases hbn : draft.bounds with
    | none =>
      rw [hbn] at he
      rw [ends_eq_none_iff.1 he.symm, nil_append] at hc
      exact hh _ _ _ (hr hc cursor)
    | some bounds =>
      obtain ⟨first, final⟩ := bounds
      rw [hbn] at he
      have hn : ((some final).toList ++ Draft.tokensOfAll drafts).IsChain (Gapless (meaningfulAt tokens)) :=
        isChain_cons.2 ⟨hb final (getLast?_of_ends he.symm), ht⟩
      simp only
      rw [stripAll_append, hh _ _ _ (hr hn _)]
      -- what is put in before the draft lies between the last token and its own first
      cases last with
      | none => rfl
      | some last =>
        have hg := hf last rfl first (by
          rw [head?_append, head?_of_ends he.symm]
          rfl)
        simp only
        rw [trivia, stripAll_map_ofToken (filter_range'_eq_nil hg), nil_append]

/-- A draft that leaves out nothing meaningful between its tokens is found again. -/
private theorem strip_place {draft : Draft} (hc : draft.tokens.IsChain (Gapless (meaningfulAt tokens)))
    (hm : ∀ place ∈ draft.tokens, meaningfulAt tokens place) (start stop : Nat) :
    strip tokens (place tokens start stop draft) = draft := by
  induction draft using Draft.induction generalizing start stop with
  | leaf token => rfl
  | node kind children ih =>
    have hch : ∀ child ∈ children, child.tokens.IsChain (Gapless (meaningfulAt tokens)) → ∀ start stop,
        strip tokens (place tokens start stop child) = child := fun child hchi hc =>
      ih child hchi hc fun place hp => hm place ((Draft.tokens_sublist hchi).subset hp)
    rw [place, strip, @stripAll_placeAll tokens children hch none hc, Draft.filter_isMeaningful_eq_self hm]

/-- Without trivia, the root stands over its drafts, if they have all meaningful tokens. -/
theorem strip_root (ht : Draft.tokensOfAll drafts = (List.range' 0 tokens.size).filter (meaningfulAt tokens))
    (size : Nat) : strip tokens (root tokens size drafts) = .node Grammar.documentKind drafts := by
  obtain ⟨before, after, hr, hb, ha, hc⟩ := exists_root_eq ht size
  have hm : ∀ place ∈ Draft.tokensOfAll drafts, meaningfulAt tokens place := by
    intro place hp
    rw [ht] at hp
    exact (mem_filter.1 hp).2
  have hd : ∀ draft ∈ before.map .leaf ++ drafts ++ after.map .leaf,
      draft.tokens.IsChain (Gapless (meaningfulAt tokens)) → ∀ start stop,
        strip tokens (place tokens start stop draft) = draft := by
    intro draft hdr hdra start stop
    rw [mem_append, mem_append, mem_map, mem_map] at hdr
    rcases hdr with (⟨token, -, rfl⟩ | hdr) | ⟨token, -, rfl⟩
    · rfl
    · exact strip_place hdra (fun place hp => hm place ((Draft.tokens_sublist hdr).subset hp)) start stop
    · rfl
  rw [← tokensOfAll_around] at hc
  rw [hr, strip, @stripAll_placeAll tokens _ hd none hc, filter_append, filter_append,
    Draft.filter_isMeaningful_map_leaf hb, Draft.filter_isMeaningful_map_leaf ha,
    Draft.filter_isMeaningful_eq_self hm, nil_append, append_nil]

/-- Without trivia, the layout of a parsed forest is a node over its drafts. -/
theorem strip_root_ofForest {g : Grammar} (hg : g.Tabulated) (tokens : List Token) (cfg : Config)
    (size : Nat) :
    strip tokens.toArray (root tokens.toArray size (ofForest (Forest.parse g tokens cfg))) =
      .node Grammar.documentKind (ofForest (Forest.parse g tokens cfg)) :=
  strip_root ((tokensOfAll_ofForest hg tokens cfg).trans (significantPlaces_eq_filter tokens)) size

/-! ## Filed layouts -/

variable {tree : Tree} {parent : Option Nat} {id : Nat} {layout : Layout}

theorem Filed.trivia_eq (h : Filed tree parent id layout) :
    (tree.node id).trivia = !layout.isMeaningful tree.tokens := by
  rw [h.node_eq]
  cases layout with
  | leaf token start stop => exact (Bool.not_not _).symm
  | node kind start stop children => rfl

/-- What is read off the significant nodes of siblings is read off their drafts. -/
private theorem FiledAll.map_significant {α : Type} {f : Nat → α} {g : Draft → α} {layouts : List Layout}
    {above first : Nat}
    (h : FiledAll tree above first layouts) (hfg : ∀ layout ∈ layouts, ∀ parent id, Filed tree parent id layout →
      f id = g (layout.strip tree.tokens)) :
    ((childIds first layouts).filter fun child => !(tree.node child).trivia).map f =
      (stripAll tree.tokens layouts).map g := by
  induction layouts generalizing first with
  | nil => rfl
  | cons layout layouts ih =>
    have hr := ih h.2 (forall_mem_cons.1 hfg).2
    rw [childIds, filter_cons, h.1.trivia_eq, Bool.not_not, stripAll]
    split
    · rw [map_cons, map_cons, hfg layout mem_cons_self _ _ h.1, hr]
    · exact hr

/-- What is read off the significant children of a node is read off the children of its draft. -/
theorem Filed.map_significantChildren {α : Type} {f : Nat → α} {g : Draft → α} (h : Filed tree parent id layout)
    (hfg : ∀ child ∈ layout.children, ∀ parent id, Filed tree parent id child → f id = g (child.strip tree.tokens)) :
    (tree.significantChildren id).map f = (layout.strip tree.tokens).children.map g := by
  rw [Tree.significantChildren, h.node_eq, head_children, strip_children]
  exact h.children.map_significant hfg

end Layout

end TreeLint
