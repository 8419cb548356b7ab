import TreeLint.Proofs.Stripping

/-!
# Tokens outside faulty nodes

The tokens of a tree that are neither below an `error` nor below an `unparsed` node are its regular tokens.

* `Draft.map_regularOfAll_ofDerivation`: the regular tokens of the draft of a derivation are those of the derivation;
* `Layout.filter_regular_root`: laying a draft out over the source adds no significant regular tokens.
-/

namespace TreeLint

open List

/-- Whether the nodes of a kind hold tokens that were skipped or left. -/
def Grammar.isFaulty (kind : String) : Bool :=
  kind == errorKind || kind == unparsedKind

namespace Draft

mutual

def regular : Draft → List Nat
  | .leaf token => [token]
  | .node kind children => if Grammar.isFaulty kind then [] else regularOfAll children

def regularOfAll : List Draft → List Nat
  | [] => []
  | child :: children => regular child ++ regularOfAll children

end

theorem regularOfAll_append (drafts more : List Draft) :
    regularOfAll (drafts ++ more) = regularOfAll drafts ++ regularOfAll more := by
  induction drafts with
  | nil => rfl
  | cons draft drafts ih => rw [cons_append, regularOfAll, regularOfAll, ih, append_assoc]

private theorem regularOfAll_sublist_of {drafts : List Draft}
    (h : ∀ draft ∈ drafts, List.Sublist draft.regular draft.tokens) :
    List.Sublist (regularOfAll drafts) (tokensOfAll drafts) := by
  induction drafts with
  | nil => exact .slnil
  | cons draft drafts ih =>
    exact (h draft mem_cons_self).append (ih (forall_mem_cons.1 h).2)

private theorem regular_sublist (draft : Draft) : List.Sublist draft.regular draft.tokens := by
  induction draft using Draft.induction with
  | leaf token => exact List.Sublist.refl _
  | node kind children ih =>
    rw [regular, tokens]
    split
    · exact nil_sublist _
    · exact regularOfAll_sublist_of ih

private theorem regularOfAll_sublist (drafts : List Draft) : List.Sublist (regularOfAll drafts) (tokensOfAll drafts) :=
  regularOfAll_sublist_of fun draft _ => draft.regular_sublist

/-! ## Drafts of derivations -/

variable {g : Grammar} {kinds : Array String} {gaps : List Chart.Gap} {significant : Array Nat}

private theorem regularOfAll_wrap (hn : ∀ name, g.isInline name = false → Grammar.isFaulty name = false)
    (name : String) (children : List Draft) : regularOfAll (wrap g name children) = regularOfAll children := by
  unfold wrap
  split
  · rfl
  next hi =>
    split
    · rfl
    · rw [regularOfAll, regularOfAll, regular, hn name (by simpa using hi), append_nil]
      rfl

private theorem map_regularOfAll_ofDerivations {kindAt : Nat → String} {parts : List Derivation}
    (h : ∀ part ∈ parts, (regularOfAll (ofDerivation g significant part)).map kindAt =
      part.positions.map (kinds.getD · "")) :
    (regularOfAll (ofDerivations g significant parts)).map kindAt =
      (Derivation.positionsOfAll parts).map (kinds.getD · "") := by
  induction parts with
  | nil => rfl
  | cons part parts ih =>
    rw [ofDerivations, regularOfAll_append, map_append, h part mem_cons_self,
      ih (forall_mem_cons.1 h).2, Derivation.positionsOfAll, map_append]

theorem map_regularOfAll_ofDerivation {kindAt : Nat → String} {deriv : Derivation}
    (hn : ∀ name, g.isInline name = false → Grammar.isFaulty name = false)
    (hk : ∀ pos < kinds.size, kindAt (significant.getD pos 0) = kinds.getD pos "")
    (h : deriv.Valid g kinds gaps) :
    (regularOfAll (ofDerivation g significant deriv)).map kindAt =
      deriv.positions.map (kinds.getD · "") := by
  induction h with
  | @token pos hlt =>
    show [kindAt (significant.getD pos 0)] = [kinds.getD pos ""]
    rw [hk pos hlt]
  | phrase _ _ _ _ ih | empty _ _ _ ih =>
    rw [ofDerivation, regularOfAll_wrap hn]
    exact map_regularOfAll_ofDerivations ih
  | skipped => rfl

end Draft

namespace Layout

mutual

def regular : Layout → List Nat
  | .leaf token _ _ => [token]
  | .node kind _ _ children => if Grammar.isFaulty kind then [] else regularOfAll children

def regularOfAll : List Layout → List Nat
  | [] => []
  | child :: children => regular child ++ regularOfAll children

end

/-! ## Layouts of drafts -/

variable {tokens : Array Token}

private theorem filter_regularOfAll_stripAll {layouts : List Layout}
    (h : ∀ layout ∈ layouts, (layout.strip tokens).regular.filter (meaningfulAt tokens) =
      layout.regular.filter (meaningfulAt tokens)) :
    (Draft.regularOfAll (stripAll tokens layouts)).filter (meaningfulAt tokens) =
      (regularOfAll layouts).filter (meaningfulAt tokens) := by
  induction layouts with
  | nil => rfl
  | cons layout layouts ih =>
    have hr := ih (forall_mem_cons.1 h).2
    rw [stripAll, regularOfAll, filter_append, ← h layout mem_cons_self, ← hr]
    split
    · rw [Draft.regularOfAll, filter_append]
    next hm =>
      cases layout with
      | leaf token start stop =>
        rw [isMeaningful] at hm
        rw [strip, Draft.regular, filter_cons_of_neg hm, filter_nil, nil_append]
      | node kind start stop children => exact absurd rfl hm

/-- Without trivia, a layout has the same meaningful regular tokens. -/
private theorem filter_regular_strip (layout : Layout) :
    (layout.strip tokens).regular.filter (meaningfulAt tokens) = layout.regular.filter (meaningfulAt tokens) := by
  induction layout using Layout.induction with
  | leaf token start stop => rfl
  | node kind start stop children ih =>
    rw [strip, regular, Draft.regular]
    split
    · rfl
    · exact filter_regularOfAll_stripAll ih

theorem filter_regular_root {drafts : List Draft}
    (ht : Draft.tokensOfAll drafts = (List.range' 0 tokens.size).filter (meaningfulAt tokens)) (size : Nat) :
    (regular (root tokens size drafts)).filter (meaningfulAt tokens) = Draft.regularOfAll drafts := by
  rw [← filter_regular_strip, strip_root ht, Draft.regular, if_neg (by decide)]
  refine filter_eq_self.2 fun place hp => ?_
  have hm := (Draft.regularOfAll_sublist drafts).subset hp
  rw [ht] at hm
  exact (mem_filter.1 hm).2

end Layout

end TreeLint
