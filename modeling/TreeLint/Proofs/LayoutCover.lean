import TreeLint.Proofs.DraftTokens
import TreeLint.Tree.Layout

/-!
# Layouts cover the source

A layout covers the tokens from one place up to another (`Layout.Covers`) when its leaves are these tokens from left to
right, it reaches from the first of them to the last, and so do its children in turn. A layout without tokens is empty
and stands at some place between tokens.

* `covers_place`: a draft whose tokens come in order covers all tokens from its first to its last, since the trivia
  between them is put in;
* `covers_root`: the root covers all tokens.
-/

namespace TreeLint

open List Draft

namespace Layout

variable {tokens : Array Token} {offset : Nat → Nat} {layouts : List Layout} {drafts : List Draft}
  {first last : Nat}

/-- What holds of leaves, and of a node if it holds of its children, holds of all layouts. -/
theorem induction {motive : Layout → Prop} (leaf : ∀ token start stop, motive (.leaf token start stop))
    (node : ∀ kind start stop children, (∀ child ∈ children, motive child) →
      motive (.node kind start stop children)) (layout : Layout) : motive layout :=
  @Layout.rec motive (fun layouts => ∀ layout ∈ layouts, motive layout) leaf node (forall_mem_nil _)
    (fun _ _ hf hr _ hm => (mem_cons.1 hm).elim (fun heq => heq ▸ hf) (hr _)) layout

mutual

/-- A layout has the tokens from one place up to another, and reaches from the offset of one to that of the other. -/
def Covers (offset : Nat → Nat) (first last : Nat) : Layout → Prop
  | .leaf token start stop => token = first ∧ last = first + 1 ∧ start = offset first ∧ stop = offset last
  | .node _ start stop children => start = offset first ∧ stop = offset last ∧ CoversAll offset first last children

/-- Layouts have the tokens from one place up to another, each from where the one before it ends. -/
def CoversAll (offset : Nat → Nat) (first last : Nat) : List Layout → Prop
  | [] => first = last
  | child :: children => ∃ middle, Covers offset first middle child ∧ CoversAll offset middle last children

end

theorem CoversAll.append {middle : Nat} {more : List Layout} (h : CoversAll offset first middle layouts)
    (hm : CoversAll offset middle last more) : CoversAll offset first last (layouts ++ more) := by
  induction layouts generalizing first with
  | nil =>
    rw [CoversAll] at h
    rwa [h]
  | cons layout layouts ih =>
    obtain ⟨next, hl, hr⟩ := h
    exact ⟨next, hl, ih hr⟩

private theorem CoversAll.le_of (h : CoversAll offset first last layouts)
    (hle : ∀ layout ∈ layouts, ∀ start stop, Covers offset start stop layout → start ≤ stop) : first ≤ last := by
  induction layouts generalizing first with
  | nil => exact Nat.le_of_eq h
  | cons layout layouts ih =>
    obtain ⟨middle, hl, hr⟩ := h
    exact Nat.le_trans (hle layout mem_cons_self _ _ hl) (ih hr (forall_mem_cons.1 hle).2)

theorem Covers.le {layout : Layout} (h : Covers offset first last layout) : first ≤ last := by
  induction layout using Layout.induction generalizing first last with
  | leaf token start stop => exact Nat.le_of_lt (Nat.lt_of_lt_of_eq (Nat.lt_succ_self first) h.2.1.symm)
  | node kind start stop children ih => exact h.2.2.le_of fun child hc _ _ hcv => ih child hc hcv

theorem CoversAll.le (h : CoversAll offset first last layouts) : first ≤ last :=
  h.le_of fun _ _ _ _ hc => hc.le

theorem CoversAll.exists_covers (h : CoversAll offset first last layouts) {layout : Layout} (hl : layout ∈ layouts) :
    ∃ start stop, Covers offset start stop layout ∧ first ≤ start ∧ stop ≤ last := by
  induction layouts generalizing first with
  | nil => cases hl
  | cons child layouts ih =>
    obtain ⟨middle, hc, hr⟩ := h
    rcases mem_cons.1 hl with rfl | hl
    · exact ⟨first, middle, hc, Nat.le_refl _, hr.le⟩
    · obtain ⟨start, stop, hcv, hs, hst⟩ := ih hr hl
      exact ⟨start, stop, hcv, Nat.le_trans hc.le hs, hst⟩

/-! ## Placing drafts -/

def Laid (offset : Nat → Nat) (tokens : Array Token) : Prop :=
  ∀ {place : Nat}, place < tokens.size →
    (tokens.getD place default).start = offset place ∧ (tokens.getD place default).stop = offset (place + 1)

private theorem covers_ofToken (h : Laid offset tokens) {place : Nat} (hp : place < tokens.size) :
    Covers offset place (place + 1) (ofToken tokens place) :=
  ⟨rfl, rfl, (h hp).1, (h hp).2⟩

private theorem coversAll_trivia (h : Laid offset tokens) (hle : first ≤ last) (hl : last ≤ tokens.size) :
    CoversAll offset first last (trivia tokens first last) := by
  rw [trivia]
  generalize hc : last - first = count
  induction count generalizing first with
  | zero =>
    have : first = last := by omega
    exact this
  | succ count ih =>
    rw [range'_succ, map_cons]
    exact ⟨first + 1, covers_ofToken h (by omega), ih (by omega) (by omega)⟩

/-- A draft without tokens stands anywhere, and another one covers the tokens from its first to its last. -/
structure Placed (offset : Nat → Nat) (tokens : Array Token) (draft : Draft) : Prop where
  empty : draft.bounds = none → ∀ here, Covers offset here here (place tokens (offset here) (offset here) draft)
  full : ∀ {first last : Nat}, draft.bounds = some (first, last) → Covers offset first (last + 1)
    (place tokens (tokens.getD first default).start (tokens.getD last default).stop draft)

/-- Where the tokens of drafts end that begin at a place. -/
def finish (first : Nat) (places : List Nat) : Nat :=
  ((Draft.ends places).map (·.2 + 1)).getD first

/-- The first place at which drafts may stand: right after the last token before them, or at their own first token. -/
def Begins (first : Nat) (places : List Nat) : Option Nat → Prop
  | some last => first = last + 1
  | none => ∀ place, places.head? = some place → place = first

private theorem finish_append {head final : Nat} {places : List Nat} (more : List Nat)
    (h : Draft.ends places = some (head, final)) : finish first (places ++ more) = finish (final + 1) more := by
  rw [finish, finish, ends_append, h]
  cases Draft.ends more <;> rfl

private theorem coversAll_placeAll (h : Laid offset tokens)
    (hp : ∀ draft ∈ drafts, Placed offset tokens draft) (hs : (tokensOfAll drafts).Pairwise (· < ·))
    (hlt : ∀ place ∈ tokensOfAll drafts, place < tokens.size) {first : Nat}
    (hf : ∀ place ∈ tokensOfAll drafts, first ≤ place) {last : Option Nat}
    (hb : Begins first (tokensOfAll drafts) last) :
    CoversAll offset first (finish first (tokensOfAll drafts))
      (placeAll tokens (offset first) last drafts) := by
  induction drafts generalizing first last with
  | nil => exact rfl
  | cons draft drafts ih =>
    have hh := hp draft mem_cons_self
    have he := draft.bounds_eq
    rw [tokensOfAll] at hs hlt hf hb ⊢
    obtain ⟨-, hs, ha⟩ := pairwise_append.1 hs
    replace ih := @ih (forall_mem_cons.1 hp).2 hs fun place hpl => hlt place (mem_append_right _ hpl)
    rw [placeAll]
    cases hbn : draft.bounds with
    | none =>
      rw [hbn] at he
      rw [ends_eq_none_iff.1 he.symm, nil_append] at hf hb ⊢
      exact ⟨first, hh.empty hbn first, ih hf hb⟩
    | some bounds =>
      obtain ⟨head, final⟩ := bounds
      rw [hbn] at he
      have hhd : head ∈ draft.tokens := mem_of_mem_head? (head?_of_ends he.symm)
      have hfn := last_mem_of_ends he.symm
      have hst := (h (hlt final (mem_append_left _ hfn))).2
      rw [finish_append _ he.symm]
      have ht : CoversAll offset head (finish (final + 1) (tokensOfAll drafts))
          (place tokens (tokens.getD head default).start (tokens.getD final default).stop draft ::
            placeAll tokens (tokens.getD final default).stop (some final) drafts) := by
        refine ⟨final + 1, hh.full hbn, ?_⟩
        rw [hst]
        exact ih (fun place hpl => ha final hfn place hpl) rfl
      -- trivia is put between this draft and the token before it, if there is one under the same parent
      cases last with
      | none =>
        have heq : head = first := hb head (by rw [head?_append, head?_of_ends he.symm]; rfl)
        exact heq ▸ ht
      | some last =>
        have heq : first = last + 1 := hb
        refine CoversAll.append ?_ ht
        show CoversAll offset first head (trivia tokens (last + 1) head)
        rw [← heq]
        exact coversAll_trivia h (hf head (mem_append_left _ hhd)) (Nat.le_of_lt (hlt head (mem_append_left _ hhd)))

/-- A draft whose tokens come in order is placed as it should. -/
private theorem placed (h : Laid offset tokens) (draft : Draft) (hs : draft.tokens.Pairwise (· < ·))
    (hlt : ∀ place ∈ draft.tokens, place < tokens.size) : Placed offset tokens draft := by
  induction draft using Draft.induction with
  | leaf token =>
    constructor
    · intro hn
      cases hn
    · intro first last hso
      cases hso
      exact covers_ofToken h (hlt token mem_cons_self)
  | node kind children ih =>
    have hc : ∀ child ∈ children, Placed offset tokens child := fun child hch =>
      ih child hch (hs.sublist (tokens_sublist hch)) fun place hp => hlt place ((tokens_sublist hch).subset hp)
    have he : (Draft.node kind children).bounds = Draft.ends (tokensOfAll children) :=
      bounds_eq _
    have hcv := @coversAll_placeAll _ _ _ h hc hs hlt
    constructor
    · intro hn here
      rw [hn] at he
      have hnl := ends_eq_none_iff.1 he.symm
      rw [hnl] at hcv
      exact ⟨rfl, rfl, hcv (forall_mem_nil _) fun _ hp => by cases hp⟩
    · intro first last hso
      rw [hso] at he
      have hh := head?_of_ends he.symm
      have hf := (h (hlt first (mem_of_mem_head? hh))).1
      have hl := (h (hlt last (last_mem_of_ends he.symm))).2
      have hfn : finish first (tokensOfAll children) = last + 1 := by rw [finish, ← he]; rfl
      refine ⟨hf, hl, ?_⟩
      rw [hf, ← hfn]
      refine hcv (le_of_head? hs hh) fun place hp => ?_
      rw [hh] at hp
      exact (Option.some.inj hp).symm

/-! ## The root -/

private theorem finish_range' (first count : Nat) : finish first (List.range' first count) = first + count := by
  cases count with
  | zero => rfl
  | succ count =>
    rw [range'_concat, finish, ends_append]
    cases Draft.ends (List.range' first count) <;> simp [Draft.ends] <;> omega

private theorem pairwise_range' (first count : Nat) : (List.range' first count).Pairwise (· < ·) :=
  pairwise_lt_range'

private theorem covers_document (h : Laid offset tokens) {kind : String} {size : Nat}
    (hs : (tokensOfAll drafts).Pairwise (· < ·))
    (hlt : ∀ place ∈ tokensOfAll drafts, place < tokens.size)
    (hb : Begins 0 (tokensOfAll drafts) none) (hf : finish 0 (tokensOfAll drafts) = tokens.size)
    (hz : offset 0 = 0) (hsz : offset tokens.size = size) :
    Covers offset 0 tokens.size (.node kind 0 size (placeAll tokens 0 none drafts)) := by
  have hp : ∀ draft ∈ drafts, Placed offset tokens draft := fun draft hd =>
    placed h draft (hs.sublist (tokens_sublist hd)) fun place hpl => hlt place ((tokens_sublist hd).subset hpl)
  have hc := coversAll_placeAll h hp hs hlt (fun place _ => Nat.zero_le place) hb
  rw [hf, hz] at hc
  exact ⟨hz.symm, hsz.symm, hc⟩

/-- The root covers all tokens, if those of the drafts below it come in order. -/
theorem covers_root (h : Laid offset tokens) {size : Nat} (hs : (tokensOfAll drafts).Pairwise (· < ·))
    (hlt : ∀ place ∈ tokensOfAll drafts, place < tokens.size) (hz : offset 0 = 0)
    (hsz : offset tokens.size = size) : Covers offset 0 tokens.size (root tokens size drafts) := by
  simp only [root, boundsOfAll_eq, Nat.sub_zero]
  cases he : Draft.ends (tokensOfAll drafts) with
  | none =>
    have ht : tokensOfAll (drafts ++ (List.range' 0 tokens.size).map .leaf) = List.range' 0 tokens.size := by
      rw [tokensOfAll_append, ends_eq_none_iff.1 he, tokensOfAll_map_leaf, nil_append]
    refine covers_document h ?_ ?_ ?_ ?_ hz hsz
    all_goals rw [ht]
    · exact pairwise_range' 0 tokens.size
    · intro place hp
      simpa using hp
    · intro place hp
      cases hc : tokens.size with
      | zero => simp [hc] at hp
      | succ count =>
        rw [hc, range'_succ] at hp
        exact (Option.some.inj hp).symm
    · rw [finish_range', Nat.zero_add]
  | some bounds =>
    obtain ⟨first, last⟩ := bounds
    have hh := head?_of_ends he
    have hl := last_mem_of_ends he
    have hls := hlt last hl
    have ht : tokensOfAll ((List.range' 0 first).map .leaf ++ drafts ++
        (List.range' (last + 1) (tokens.size - (last + 1))).map .leaf) = (List.range' 0 first ++ tokensOfAll drafts) ++
            List.range' (last + 1) (tokens.size - (last + 1)) := by
      rw [tokensOfAll_append, tokensOfAll_append, tokensOfAll_map_leaf, tokensOfAll_map_leaf]
    have hf : ∃ head, Draft.ends (List.range' 0 first ++ tokensOfAll drafts) = some (head, last) := by
      rw [ends_append, he]
      cases Draft.ends (List.range' 0 first) <;> exact ⟨_, rfl⟩
    obtain ⟨head, hf⟩ := hf
    have hb := le_of_head? hs hh
    have hbh := le_of_ends hs he
    refine covers_document h ?_ ?_ ?_ ?_ hz hsz
    all_goals rw [ht]
    · refine pairwise_append.2 ⟨pairwise_append.2 ⟨pairwise_range' .., hs, ?_⟩, pairwise_range' .., ?_⟩
      · intro place hp other ho
        have := hb other ho
        rw [mem_range'_1] at hp
        omega
      · intro place hp other ho
        rw [mem_range'_1] at ho
        rcases mem_append.1 hp with hp | hp
        · have := hb last hl
          rw [mem_range'_1] at hp
          omega
        · have := hbh place hp
          omega
    · intro place hp
      simp only [mem_append, mem_range'_1] at hp
      rcases hp with (hp | hp) | hp
      · have := hb last hl
        omega
      · exact hlt place hp
      · omega
    · intro place hp
      rw [append_assoc, head?_append, head?_append, hh] at hp
      cases first with
      | zero | succ first => exact (Option.some.inj hp).symm
    · rw [finish_append _ hf, finish_range']
      omega

end Layout

end TreeLint
