import TreeLint.Proofs.MatchRecord

/-!
# Matching with a record

Matching with a record, with guards decided as early as they can be and with ellipses that leave enough siblings for the
rest of their list yields what plain matching gives.

* `Plain.matchNode_settled`, `Plain.matchItems_settled`: plain matching may start with what settling leaves over;
* `yields_matchNode`: this holds of every instruction of a well formed pattern;
* `yields_matchItems`: and of the end of every list of it.
-/

namespace TreeLint

open List

namespace Match

open Pattern (Instr Formed)
open Pattern.Instr (bindersOfAll Separate)

variable {root instr : Instr} {tree : Tree} {node : Nat} {chain pending left : List Pending}
  {start bindings bound : Bindings}

/-! ## Settling first -/

def Fresh (names : List String) (bindings : Bindings) : Prop :=
  ∀ name ∈ bindings.names, name ∉ names

theorem Fresh.mono {names more : List String} (h : Fresh more bindings) (hs : names ⊆ more) : Fresh names bindings :=
  fun name hn hm => h name hn (hs hm)

theorem Fresh.relevant {names : List String} (h : Fresh names bindings) (reads : Unit → List String)
    (pending : List Pending) : Fresh names (relevant bindings reads pending) :=
  fun name hn => h name (mem_names_of_mem_names_relevant hn)

private theorem isAccepted_of_leftOver_none (hl : leftOver tree pending bindings = none)
    (hb : ∀ name ∈ bound.names, name ∉ bindings.names) : isAccepted tree pending (bindings.add bound) = false := by
  rw [isAccepted_add_eq hb, hl]
  rfl

private theorem isAccepted_of_leftOver_some (hl : leftOver tree pending bindings = some left)
    (hb : ∀ name ∈ bound.names, name ∉ bindings.names) (reads : Unit → List String) :
    isAccepted tree pending (bindings.add bound) =
      isAccepted tree left ((relevant bindings reads left).add bound) := by
  rw [isAccepted_add_eq hb, hl]
  refine isAccepted_congr fun name hn => Bindings.get?_add_congr ?_
  rw [get?_relevant (.inr hn)]

namespace Plain

/-- A guard that fails early would fail in the end. -/
private theorem matchNode_of_leftOver_none (hf : Fresh instr.binders bindings)
    (hl : leftOver tree pending bindings = none) :
    matchNode tree instr node bindings (isAccepted tree pending) = none := by
  cases hfn : matchNode tree instr node bindings (isAccepted tree pending) with
  | none => rfl
  | some found =>
    -- the chain would hold in the end, and what is bound by then does not touch what is bound now
    obtain ⟨hc, hn, -⟩ := sound tree instr _ _ _ _ hfn
    rw [isAccepted_of_leftOver_none hl fun name hnm hm =>
      hf name hm (instr.mayBind_subset (hn name hnm))] at hc
    cases hc

theorem matchNode_settled (hf : Fresh instr.binders bindings) (hl : leftOver tree pending bindings = some left) :
    matchNode tree instr node bindings (isAccepted tree pending) =
      matchNode tree instr node (relevant bindings (fun _ => instr.reads) left) (isAccepted tree left) := by
  refine isLocal tree instr node _ _ _ _ (fun name hn => (get?_relevant (.inl hn)).symm) fun bound hb => ?_
  exact isAccepted_of_leftOver_some hl (fun name hn hm => hf name hm (instr.mayBind_subset (hb name hn))) _

variable {items : List Instr} {siblings : List Nat} {anchored : Bool}

private theorem matchItems_of_leftOver_none (hf : Fresh (bindersOfAll items) bindings)
    (hl : leftOver tree pending bindings = none) :
    matchItems tree anchored items siblings bindings (isAccepted tree pending) = none := by
  cases hfn : matchItems tree anchored items siblings bindings (isAccepted tree pending) with
  | none => rfl
  | some found =>
    obtain ⟨hc, hn, -⟩ := matchItems_sound hfn
    rw [isAccepted_of_leftOver_none hl fun name hnm hm =>
      hf name hm (Instr.mayBindOfAll_subset items (hn name hnm))] at hc
    cases hc

theorem matchItems_settled (hf : Fresh (bindersOfAll items) bindings)
    (hl : leftOver tree pending bindings = some left) :
    matchItems tree anchored items siblings bindings (isAccepted tree pending) =
      matchItems tree anchored items siblings (relevant bindings (fun _ => Instr.readsOfAll items) left)
        (isAccepted tree left) := by
  refine matchItems_congr (fun name hn => (get?_relevant (.inl hn)).symm) fun bound hb => ?_
  exact isAccepted_of_leftOver_some hl
    (fun name hn hm => hf name hm (Instr.mayBindOfAll_subset items (hb name hn))) _

end Plain

/-! ## One step -/

/-- Settling and recalling around a way to match an instruction that yields what plain matching gives. -/
private theorem yields_settled_node {find : List Pending → Matching (Option Bindings)} (hf : Formed root)
    (hm : instr ∈ root.parts) (hfr : Fresh instr.binders bindings) (hp : AllOf root pending)
    (ha : Awaited root tree chain pending) (hr : Reached root tree start chain bindings)
    (hfn : ∀ settled left, relevant bindings (fun _ => instr.reads) left = settled → Fresh instr.binders settled →
      AllOf root left → Awaited root tree chain left → Reached root tree start chain settled →
        Yields root tree (Breaks root tree · start chain) (find left)
          (Plain.matchNode tree instr node settled (isAccepted tree left))) :
    Yields root tree (Breaks root tree · start chain) (do
        match ← settle tree bindings pending with
        | none => return none
        | some pending =>
          let bindings := relevant bindings (fun _ => instr.reads) pending
          recallNode { id := instr.id, node, bindings, pending := pending.map Pending.key } (find pending))
      (Plain.matchNode tree instr node bindings (isAccepted tree pending)) := by
  refine (yields_settle hf hp ha hr).bind ?_
  cases hl : leftOver tree pending bindings with
  | none =>
    rw [Plain.matchNode_of_leftOver_none hfr hl]
    exact yields_pure none
  | some left =>
    rw [Plain.matchNode_settled hfr hl]
    have hsb := subset_of_leftOver hl
    have hs := hfr.relevant (fun _ => instr.reads) left
    have hre := hr.relevant (fun _ => instr.reads) left
    exact yields_recallNode hf ⟨hm, rfl, hp.mono hsb, rfl⟩
      (hfn _ left rfl hs (hp.mono hsb) (ha.mono hsb) hre)

/-- Settling and recalling around a way to match the end of a list that yields what plain matching gives. -/
private theorem yields_settled_list {find : List Pending → Matching (Option (Bindings × Nat))} {owner : Instr}
    {anchored : Bool} {all items : List Instr} {parent : Nat} {siblings : List Nat} (hf : Formed root)
    (ho : owner ∈ root.parts) (ha : owner.list? = some (anchored, all)) (hi : items <:+ all)
    (hs : siblings <:+ tree.significantChildren parent) (hfr : Fresh (bindersOfAll items) bindings)
    (hp : AllOf root pending) (haw : Awaited root tree chain pending) (hr : Reached root tree start chain bindings)
    (hfn : ∀ settled left, relevant bindings (fun _ => Instr.readsOfAll items) left = settled →
      Fresh (bindersOfAll items) settled → AllOf root left → Awaited root tree chain left →
        Reached root tree start chain settled → Yields root tree (Breaks root tree · start chain) (find left)
          (Plain.matchItems tree anchored items siblings settled (isAccepted tree left))) :
    Yields root tree (Breaks root tree · start chain) (do
        match ← settle tree bindings pending with
        | none => return none
        | some pending =>
          let bindings := relevant bindings (fun _ => Instr.readsOfAll items) pending
          let key : ListKey :=
            { owner := owner.id, parent, items := items.length, siblings := siblings.length, bindings,
              pending := pending.map Pending.key }
          recallList key (find pending))
      (Plain.matchItems tree anchored items siblings bindings (isAccepted tree pending)) := by
  refine (yields_settle hf hp haw hr).bind ?_
  cases hl : leftOver tree pending bindings with
  | none =>
    rw [Plain.matchItems_of_leftOver_none hfr hl]
    exact yields_pure none
  | some left =>
    rw [Plain.matchItems_settled hfr hl]
    have hsb := subset_of_leftOver hl
    have hst := hfr.relevant (fun _ => Instr.readsOfAll items) left
    have hre := hr.relevant (fun _ => Instr.readsOfAll items) left
    exact yields_recallList hf ⟨⟨owner, ho, rfl, all, ha, hi⟩, rfl, hs, rfl, hp.mono hsb, rfl⟩
      (hfn _ left rfl hst (hp.mono hsb) (haw.mono hsb) hre)

/-! ## Every instruction -/

def Recorded (root : Instr) (tree : Tree) (start : Bindings) (chain : List Pending) (instr : Instr) : Prop :=
  ∀ (node : Nat) (bindings : Bindings) (pending : List Pending), IsPlace tree node → Fresh instr.binders bindings →
    AllOf root pending → Awaited root tree chain pending → Reached root tree start chain bindings →
      Yields root tree (Breaks root tree · start chain) (matchNode tree instr node bindings pending)
        (Plain.matchNode tree instr node bindings (isAccepted tree pending))

private theorem isAccepted_nil : isAccepted tree [] = fun _ => true :=
  funext fun _ => rfl

private theorem yields_matchOptions_of {options : List Instr}
    (ho : ∀ option ∈ options, Recorded root tree start chain option) (hn : IsPlace tree node)
    (hf : Fresh (bindersOfAll options) bindings) (hp : AllOf root pending) (ha : Awaited root tree chain pending)
    (hr : Reached root tree start chain bindings) :
    Yields root tree (Breaks root tree · start chain) (matchOptions tree options node bindings pending)
      (Plain.matchOptions tree options node bindings (isAccepted tree pending)) := by
  induction options with
  | nil => exact yields_pure none
  | cons option options ih =>
    rw [matchOptions, Plain.matchOptions]
    refine (ho option mem_cons_self node bindings pending hn (hf.mono (subset_append_left _ _)) hp ha hr).bind ?_
    cases Plain.matchNode tree option node bindings (isAccepted tree pending) with
    | some found => exact yields_pure (some found)
    | none =>
      exact ih (forall_mem_cons.1 ho).2 (hf.mono (subset_append_right _ _))

section

variable {owner item : Instr} {anchored : Bool} {all items rest : List Instr} {parent : Nat} {siblings : List Nat}

private theorem fresh_add (hs : Separate (item :: rest)) (hf : Fresh (bindersOfAll (item :: rest)) bindings)
    (hb : ∀ name ∈ bound.names, name ∈ item.mayBind) : Fresh (bindersOfAll rest) (bindings.add bound) := by
  intro name hn
  rcases Bindings.mem_names_add.1 hn with hn | hn
  · exact fun hm => hf name hn (mem_append_right _ hm)
  · exact hs.1 name (hb name hn)

theorem parts_item_subset (ha : owner.list? = some (anchored, all)) (hi : item ∈ all) :
    item.parts ⊆ owner.parts := by
  cases owner with
  | node | siblings =>
    cases ha
    exact Instr.parts_child_subset hi
  | _ => cases ha

theorem yields_matchItems_of (hf : Formed root) (ho : owner ∈ root.parts)
    (ha : owner.list? = some (anchored, all)) (hi : items <:+ all)
    (hr : ∀ item ∈ items, Recorded root tree start chain item) (hs : Separate items)
    (hsb : siblings <:+ tree.significantChildren parent) (hfr : Fresh (bindersOfAll items) bindings)
    (hp : AllOf root pending) (haw : Awaited root tree chain pending) (hre : Reached root tree start chain bindings) :
    Yields root tree (Breaks root tree · start chain)
      (matchItems tree owner.id parent anchored items siblings siblings.length bindings pending)
      (Plain.matchItems tree anchored items siblings bindings (isAccepted tree pending)) := by
  induction items generalizing siblings bindings pending with
  | nil =>
    rw [matchItems]
    refine yields_settled_list hf ho ha hi hsb hfr hp haw hre fun settled left hst _ hl hlw hse => ?_
    rw [hst, Plain.matchItems]
    dsimp only
    split
    · exact yields_pure none
    · exact (yields_accepted hf hl hlw hse).map _
  | cons item rest ih =>
    have hrs : rest <:+ all := (suffix_cons item rest).trans hi
    have hot := (forall_mem_cons.1 hr).2
    have hit : item ∈ root.parts :=
      Instr.parts_subset_of_mem ho (parts_item_subset ha (hi.subset mem_cons_self) item.self_mem_parts)
    rw [matchItems]
    refine yields_settled_list hf ho ha hi hsb hfr hp haw hre fun settled left hst hfr hl hlw hse => ?_
    rw [hst]
    dsimp only
    split
    next hie =>
      -- only lengths that leave enough siblings are tried
      rw [Plain.matchItems_takes hie]
      refine yields_firstFound fun taken _ => ?_
      have hb : Fresh (bindersOfAll rest) (settled.add (runBindings item (siblings.take taken))) :=
        fresh_add hs hfr fun _ => Plain.mem_mayBind_of_runBindings
      have hpr := take_prefix taken siblings
      have ht := hpr.isInfix.trans hsb.isInfix
      have hn := ih hrs hot hs.2 ((drop_suffix taken siblings).trans hsb) hb hl hlw (hse.runBindings hit ht)
      rw [length_drop] at hn
      exact hn.map _
    next hie =>
      cases siblings with
      | nil =>
        rw [Plain.matchItems_fixed_nil hie]
        exact yields_pure none
      | cons sibling siblings =>
        dsimp only
        split
        next hfw =>
          -- the item would take a sibling that the rest needs
          rw [Plain.matchItems_eq_none_of_lt]
          · exact yields_pure none
          · rw [length_cons] at hfw ⊢
            rw [countP_cons_of_pos (by simpa using hie)]
            omega
        next =>
          have hpl := isPlace_of_suffix hsb mem_cons_self
          rw [Plain.matchItems_fixed_cons hie, ← isAccepted_nil]
          refine (hr item mem_cons_self sibling settled [] hpl (hfr.mono (subset_append_left _ _)) allOf_nil awaited_nil
            hse).bind ?_
          cases hb : Plain.matchNode tree item sibling settled (isAccepted tree []) with
          | none => exact yields_pure none
          | some bound =>
            have hn := ih hrs hot hs.2 ((suffix_cons sibling siblings).trans hsb)
              (fresh_add hs hfr (Plain.sound tree item _ _ _ _ hb).mayBind) hl hlw (.item hit hpl hb hse)
            exact hn.map _

end

/-- Matching an instruction of a well formed pattern with a record yields what plain matching gives. -/
theorem recorded (hf : Formed root) (instr : Instr) (hp : instr.parts ⊆ root.parts) :
    Recorded root tree start chain instr := by
  induction instr using Instr.induction with
  | step instr ih =>
    have hc : ∀ child ∈ instr.children, Recorded root tree start chain child :=
      fun child hch => ih child hch fun part hpr => hp (Instr.parts_child_subset hch hpr)
    have hm : instr ∈ root.parts := hp instr.self_mem_parts
    intro node bindings pending hpl hfr hpn haw hre
    rw [matchNode]
    -- from here on only the relevant bindings count, and only what is left of the pending chain
    refine yields_settled_node hf hm hfr hpn haw hre fun settled left hs hfr hl hlw hse => ?_
    rw [hs]
    have ha : Yields root tree (Breaks root tree · start chain) (accepted tree settled left [])
        (Plain.accepted settled (isAccepted tree left) []) := yields_accepted hf hl hlw hse
    cases instr with
    | kind | text | regex | backref =>
      rw [Plain.matchNode]
      dsimp only
      split
      · exact ha
      · exact yields_pure none
    | wildcard => exact ha
    | ellipsis | siblings => exact yields_pure none
    | metavar id name => exact yields_accepted hf hl hlw (.captured ⟨id, .inl hm⟩ hpl hse)
    | node id name kindId items =>
      rw [Plain.matchNode]
      dsimp only
      split
      · have hsp := hf.separate _ hm true items rfl
        exact (yields_matchItems_of hf hm rfl suffix_rfl hc hsp suffix_rfl hfr hl hlw hse).map _
      · exact yields_pure none
    | capture id name inner =>
      have hi := hc inner mem_cons_self node settled
      have hfr : Fresh inner.binders settled := hfr.mono (subset_cons_self _ _)
      -- with nothing pending, no guard has to know the name
      cases left with
      | nil => exact (hi [] hpl hfr allOf_nil awaited_nil hse).map _
      | cons first rest =>
        have hb : AllOf root (.bind name node :: first :: rest) := allOf_cons.2 ⟨trivial, hl⟩
        have hba : Awaited root tree chain (.bind name node :: first :: rest) :=
          hlw.cons ⟨id, .inr ⟨inner, hm⟩⟩ hpl
        exact (hi _ hpl hfr hb hba hse).map _
    | oneOf id options => exact yields_matchOptions_of hc hpl hfr hl hlw hse
    | negation id inner =>
      rw [Plain.matchNode, ← isAccepted_nil]
      refine (hc inner mem_cons_self node settled [] hpl hfr allOf_nil awaited_nil hse).bind ?_
      cases Plain.matchNode tree inner node settled (isAccepted tree []) with
      | some => exact yields_pure none
      | none => exact ha
    | deep id inner =>
      exact yields_firstFound fun target ht =>
        hc inner mem_cons_self target settled left (isPlace_of_mem_targets hpl ht) hfr hl hlw hse
    | guarded id inner pred =>
      have hg : AllOf root (.guard id pred :: left) := allOf_cons.2 ⟨⟨_, hm, rfl, rfl⟩, hl⟩
      exact hc inner mem_cons_self node settled _ hpl hfr hg hlw.guard hse

theorem yields_matchNode (hf : Formed root) {node : Nat} (hn : IsPlace tree node) :
    Yields root tree (Breaks root tree ·) (matchNode tree root node [] [])
      (Plain.matchNode tree root node [] fun _ => true) := by
  rw [← isAccepted_nil]
  exact recorded hf root (List.Subset.refl _) node [] [] hn (forall_mem_nil _) allOf_nil awaited_nil .start

theorem yields_matchItems {id parent : Nat} {items : List Instr} {guard : Option Predicate} {siblings : List Nat}
    (hf : Formed (.siblings id items guard)) (hs : siblings <:+ tree.significantChildren parent)
    (hp : AllOf (.siblings id items guard) pending) (ha : Awaited (.siblings id items guard) tree [] pending) :
    Yields (.siblings id items guard) tree (Breaks (.siblings id items guard) tree ·)
      (matchItems tree id parent false items siblings siblings.length [] pending)
      (Plain.matchItems tree false items siblings [] (isAccepted tree pending)) := by
  have hm := (Instr.siblings id items guard).self_mem_parts
  have hr : ∀ item ∈ items, Recorded (.siblings id items guard) tree [] [] item :=
    fun item hi => recorded hf item (Instr.parts_child_subset hi)
  exact yields_matchItems_of hf hm rfl suffix_rfl hr (hf.separate _ hm _ _ rfl) hs (forall_mem_nil _) hp ha .start

end Match

end TreeLint
