import TreeLint.Proofs.ExactSettling

/-!
# The order in which spots are settled

Going depth first through the spots of a chart leaves them behind one after the other. A spot is given a derivation at
the moment at which it is left behind, from those given to others before, so it is given one exactly if it has one in
which every spot was left behind after all of which it is directly made.

* `Walk`: going depth first, as a relation between lists of spots;
* `InOrder`: a derivation that respects an order;
* `Settles.exists_walk`, `exists_walk_solve`: settling gives derivations to spots in the order of the walk.
-/

namespace TreeLint

open List

namespace Forest

open Chart (Item Link Column Sane)
open Relation (TransGen)

variable {g : Grammar} {chart : Chart} {kinds : Array String} {gaps : List Chart.Gap}
  {spot part : Spot} {memo middle after : Memo} {spots opened before order : List Spot}

/-- Going depth first through a list of spots, the last of them first, while some are open and some have been left
behind. A spot in neither list is opened, all on which it depends is gone through, and it is left behind in front of all
that was left behind until then. -/
inductive Walk (grammar : Grammar) (chart : Chart) : (opened spots before after : List Spot) → Prop
  | nil {opened before : List Spot} : Walk grammar chart opened [] before before
  | known {opened spots before after : List Spot} {spot : Spot} : Walk grammar chart opened spots before after →
      spot ∈ opened ∨ spot ∈ after → Walk grammar chart opened (spot :: spots) before after
  | fresh {opened spots before middle after : List Spot} {spot : Spot} :
      Walk grammar chart opened spots before middle → spot ∉ opened → spot ∉ middle →
        Walk grammar chart (spot :: opened) (dependencies grammar chart spot) middle after →
          Walk grammar chart opened (spot :: spots) before (spot :: after)

/-- A spot has a derivation in which every spot comes, in a list with the last one first, after those of which it is
directly made. -/
inductive InOrder (grammar : Grammar) (chart : Chart) (order : List Spot) : Spot → Prop
  | start {position : Nat} {item : Item} : linksOf chart position item = [] → item.dot = 0 →
      InOrder grammar chart order (.item position item)
  | made {spot : Spot} {option : List Spot} : option ∈ options grammar chart spot →
      (∀ part ∈ option, [spot, part] <+ order) → (∀ part ∈ option, InOrder grammar chart order part) →
        InOrder grammar chart order spot

theorem Walk.cons {middle after : List Spot} (hs : Walk g chart opened spots before middle)
    (h : Walk g chart opened [spot] middle after) : Walk g chart opened (spot :: spots) before after := by
  cases h with
  | known hn hm =>
    cases hn
    exact .known hs hm
  | fresh hn ho hm hd =>
    cases hn
    exact .fresh hs ho hm hd

/-- What is open is not left behind. -/
private theorem Walk.not_mem {after : List Spot} (h : Walk g chart opened spots before after) (ho : spot ∈ opened)
    (hb : spot ∉ before) : spot ∉ after := by
  induction h with
  | nil => exact hb
  | known _ _ ih => exact ih ho hb
  | fresh _ hn _ _ ih ihinner =>
    rw [mem_cons, not_or]
    exact ⟨fun he => hn (he ▸ ho), ihinner (mem_cons_of_mem _ ho) (ih ho hb)⟩

theorem Walk.suffix {after : List Spot} (h : Walk g chart opened spots before after) : before <:+ after := by
  induction h with
  | nil => exact suffix_rfl
  | known _ _ ih => exact ih
  | fresh _ _ _ _ ih ihinner => exact (ih.trans ihinner).trans (suffix_cons _ _)

theorem Walk.mem {after : List Spot} (h : Walk g chart opened spots before after) (hs : spot ∈ spots) :
    spot ∈ opened ∨ spot ∈ after := by
  induction h with
  | nil => cases hs
  | known _ hk ih =>
    rcases mem_cons.1 hs with rfl | hs
    · exact hk
    · exact ih hs
  | fresh _ _ _ hd ih =>
    rcases mem_cons.1 hs with rfl | hs
    · exact .inr mem_cons_self
    · exact (ih hs).imp_right fun hm => mem_cons_of_mem _ (hd.suffix.subset hm)

/-- What is left behind is gone through from the list, or something depends on it. -/
theorem Walk.leads {after : List Spot} (h : Walk g chart opened spots before after) (hs : spot ∈ after) :
    spot ∈ before ∨ spot ∈ spots ∨ ∃ other, Leads g chart other spot := by
  induction h with
  | nil => exact .inl hs
  | known _ _ ih => exact (ih hs).imp_right (Or.imp_left (mem_cons_of_mem _))
  | fresh _ _ _ _ ih ihinner =>
    rcases mem_cons.1 hs with rfl | hs
    · exact .inr (.inl mem_cons_self)
    · rcases ihinner hs with hm | hd | hl
      · exact (ih hm).imp_right (Or.imp_left (mem_cons_of_mem _))
      · exact .inr (.inr ⟨_, hd⟩)
      · exact .inr (.inr hl)

/-- What a spot depends on is left behind before it, unless it was open: then it leads to the spot. -/
private theorem Walk.before_or_cycle {after : List Spot} (h : Walk g chart opened spots before after)
    (ho : ∀ other ∈ opened, ∀ next ∈ spots, TransGen (Leads g chart) other next) (hs : spot ∈ after)
    (hb : spot ∉ before) (hl : Leads g chart spot part) :
    [spot, part] <+ after ∨ TransGen (Leads g chart) part spot := by
  induction h with
  | nil => exact absurd hs hb
  | known _ _ ih => exact ih (fun other hot next hn => ho other hot next (mem_cons_of_mem _ hn)) hs hb
  | @fresh opened spots before middle after first hr _ _ hd ih ihinner =>
    have hfirst : ∀ other ∈ first :: opened,
        ∀ next ∈ dependencies g chart first, TransGen (Leads g chart) other next := by
      intro other hot next hn
      rcases mem_cons.1 hot with rfl | hot
      · exact .single hn
      · exact (ho other hot first mem_cons_self).tail hn
    rcases mem_cons.1 hs with rfl | hs
    · rcases hd.mem hl with hp | hp
      · right
        rcases mem_cons.1 hp with rfl | hp
        · exact .single hl
        · exact ho part hp spot mem_cons_self
      · exact .inl ((singleton_sublist.2 hp).cons_cons spot)
    · by_cases hm : spot ∈ middle
      · refine (ih (fun other hot next hn => ho other hot next (mem_cons_of_mem _ hn)) hm hb).imp_left fun hp => ?_
        exact (hp.trans hd.suffix.sublist).cons first
      · exact (ihinner hfirst hs hm).imp_left fun hp => hp.cons first

/-- A spot has been left behind in time for another one, with a derivation in order. -/
def Ready (grammar : Grammar) (chart : Chart) (order : List Spot) (spot part : Spot) : Prop :=
  [spot, part] <+ order ∧ InOrder grammar chart order part

private theorem inOrder_iff : InOrder g chart order spot ↔
    (∃ pos item, spot = .item pos item ∧ linksOf chart pos item = [] ∧ item.dot = 0) ∨
      ∃ option ∈ options g chart spot, ∀ part ∈ option, Ready g chart order spot part := by
  constructor
  · intro h
    cases h with
    | start hl hd => exact .inl ⟨_, _, rfl, hl, hd⟩
    | made ho hb hp => exact .inr ⟨_, ho, fun part hm => ⟨hb part hm, hp part hm⟩⟩
  · rintro (⟨pos, item, rfl, hl, hd⟩ | ⟨option, ho, hr⟩)
    · exact .start hl hd
    · exact .made ho (fun part hp => (hr part hp).1) fun part hp => (hr part hp).2

/-- What is ready is one of the items of the chart. -/
theorem Ready.mem_items {root : Spot} {pos : Nat} {item : Item} (h : Ready g chart order spot (.item pos item))
    (hs : Sane g kinds chart.column gaps) (hg : g.Tabulated) (hw : Walk g chart [] [root] [] order)
    (hr : root ≠ .item pos item) : item ∈ (chart.column pos).items := by
  have hm : .item pos item ∈ order := h.1.subset (by simp)
  rcases hw.leads hm with hn | he | ⟨other, hl⟩
  · cases hn
  · exact absurd (mem_singleton.1 he).symm hr
  · exact (proper_of_mem_dependencies hs hg hl).1.2

/-! ## Leaving one more spot behind -/

private theorem pair_sublist_cons_iff {first : Spot} (hs : spot ≠ first) :
    [spot, part] <+ first :: order ↔ [spot, part] <+ order := by
  refine ⟨fun h => ?_, fun h => h.cons first⟩
  cases h with
  | cons _ h => exact h
  | cons_cons => exact absurd rfl hs

private theorem pair_sublist_cons_self_iff (hs : spot ∉ order) : [spot, part] <+ spot :: order ↔ part ∈ order := by
  refine ⟨fun h => ?_, fun h => (singleton_sublist.2 h).cons_cons spot⟩
  cases h with
  | cons _ h => exact absurd (h.subset mem_cons_self) hs
  | cons_cons _ h => exact singleton_sublist.1 h

/-- A spot that is left behind later changes nothing for those left behind before. -/
private theorem inOrder_cons_iff (hs : spot ∉ order) (hp : part ∈ order) :
    InOrder g chart (spot :: order) part ↔ InOrder g chart order part := by
  have hne : ∀ {other}, other ∈ order → other ≠ spot := fun ho h => hs (h ▸ ho)
  constructor
  · intro h
    induction h with
    | start hl hd => exact .start hl hd
    | made ho hb _ ih =>
      have hb' := fun next hn => (pair_sublist_cons_iff (hne hp)).1 (hb next hn)
      exact .made ho hb' fun next hn => ih next hn ((hb' next hn).subset (by simp))
  · intro h
    induction h with
    | start hl hd => exact .start hl hd
    | made ho hb _ ih =>
      exact .made ho (fun next hn => (hb next hn).cons spot) fun next hn => ih next hn ((hb next hn).subset (by simp))

private theorem ready_cons_iff {other : Spot} (hs : spot ∉ order) (ho : other ∈ order) :
    Ready g chart (spot :: order) other part ↔ Ready g chart order other part := by
  have hne : other ≠ spot := fun h => hs (h ▸ ho)
  rw [Ready, Ready, pair_sublist_cons_iff hne]
  exact and_congr_right fun hp => inOrder_cons_iff hs (hp.subset (by simp))

private theorem ready_cons_self_iff (hs : spot ∉ order) :
    Ready g chart (spot :: order) spot part ↔ part ∈ order ∧ InOrder g chart order part := by
  rw [Ready, pair_sublist_cons_self_iff hs]
  exact and_congr_right fun hp => inOrder_cons_iff hs hp

/-! ## What is known agrees with the walk -/

/-- A spot is given a derivation if it is the beginning of an alternative, or if one of its ways to a derivation is
open. -/
private theorem isSome_choose_iff : (choose g chart memo spot).isSome ↔
    (∃ pos item, spot = .item pos item ∧ linksOf chart pos item = [] ∧ item.dot = 0) ∨
      ∃ option ∈ options g chart spot, ∀ part ∈ option, (choice? memo part).isSome := by
  refine ⟨fun h => ?_, ?_⟩
  · obtain ⟨choice, hc⟩ := Option.isSome_iff_exists.1 h
    cases spot with
    | phrase name start stop =>
      obtain ⟨item, hi, hf⟩ := exists_of_findSome?_eq_some hc
      exact .inr ⟨_, mem_map_of_mem hi, forall_mem_singleton.2 (Option.isSome_of_eq_some hf)⟩
    | item pos item =>
      rcases start_or_throughLink hc with ⟨hl, hd, -⟩ | ⟨link, hl, ht⟩
      · exact .inl ⟨pos, item, rfl, hl, hd⟩
      · exact .inr ⟨_, mem_options_of_mem_linksOf hl, isSome_throughLink_iff.1 (Option.isSome_of_eq_some ht)⟩
  · rintro (⟨pos, item, rfl, hl, hd⟩ | ⟨option, ho, ha⟩)
    · exact isSome_choose_of_dot_eq_zero hl hd
    · exact isSome_choose ho ha

/-- What is selected for a phrase is what is selected for the first of its alternatives that were ready. -/
def FirstReady (grammar : Grammar) (chart : Chart) (order : List Spot) (memo : Memo) (name : String) (start stop : Nat)
    (choice : Choice) : Prop :=
  ∃ before item rest, completeItems grammar chart name start stop = before ++ item :: rest ∧
    choice? memo (.item stop item) = some choice ∧
    Ready grammar chart order (.phrase name start stop) (.item stop item) ∧
    ∀ passed ∈ before, ¬ Ready grammar chart order (.phrase name start stop) (.item stop passed)

/-- What is known agrees with which spots are open and which have been left behind. -/
structure Records (grammar : Grammar) (chart : Chart) (opened order : List Spot) (memo : Memo) : Prop where
  contains_iff : ∀ spot, memo.contains spot ↔ spot ∈ opened ∨ spot ∈ order
  isSome_iff : ∀ spot, (choice? memo spot).isSome ↔ spot ∈ order ∧ InOrder grammar chart order spot
  first : ∀ name start stop choice, choice? memo (.phrase name start stop) = some choice →
    FirstReady grammar chart order memo name start stop choice

private theorem records_empty (g : Grammar) (chart : Chart) : Records g chart [] [] ∅ where
  contains_iff spot := by simp
  isSome_iff spot := by simp [choice?]
  first name start stop choice hc := by simp [choice?] at hc

private theorem Records.insert_unsettled (h : Records g chart opened order memo) (hs : ¬ memo.contains spot) :
    Records g chart (spot :: opened) order (memo.insert spot .unsettled) := by
  have hsame : ∀ other, choice? (memo.insert spot .unsettled) other = choice? memo other := by
    intro other
    by_cases hne : other = spot
    · rw [hne, choice?_eq_none hs, choice?, Std.HashMap.getElem?_insert_self]
    · rw [choice?, choice?, getElem?_insert_of_ne hne]
  refine ⟨fun other => ?_, fun other => by rw [hsame]; exact h.isSome_iff other, ?_⟩
  · rw [Std.HashMap.contains_insert, Bool.or_eq_true, h.contains_iff, mem_cons, beq_iff_eq, or_assoc, eq_comm]
  · intro name start stop choice hc
    rw [hsame] at hc
    obtain ⟨before, item, rest, hi, hit, hr⟩ := h.first _ _ _ _ hc
    exact ⟨before, item, rest, hi, (hsame _).trans hit, hr⟩

/-- The verdict on an open spot is in accord with the order in which it is left behind. -/
theorem Records.insert_verdict (h : Records g chart (spot :: opened) order memo) (hs : spot ∉ order) :
    Records g chart opened (spot :: order) (memo.insert spot (verdict g chart memo spot)) := by
  have hnone : choice? memo spot = none := by
    rw [← Option.not_isSome_iff_eq_none, h.isSome_iff]
    exact fun hm => hs hm.1
  have hk : Keeps memo (memo.insert spot (verdict g chart memo spot)) := keeps_insert hnone
  have hother : ∀ {other}, other ≠ spot →
      choice? (memo.insert spot (verdict g chart memo spot)) other = choice? memo other := by
    intro other hne
    rw [choice?, choice?, getElem?_insert_of_ne hne]
  refine ⟨fun other => ?_, fun other => ?_, fun name start stop choice hc => ?_⟩
  · rw [Std.HashMap.contains_insert, Bool.or_eq_true, h.contains_iff, mem_cons, mem_cons, beq_iff_eq]
    grind
  · by_cases hne : other = spot
    · subst hne
      rw [choice?_insert_verdict, isSome_choose_iff, inOrder_iff]
      simp only [mem_cons_self, true_and, h.isSome_iff, ready_cons_self_iff hs]
    · rw [hother hne, h.isSome_iff, mem_cons, or_iff_right hne]
      exact and_congr_right fun hm => (inOrder_cons_iff hs hm).symm
  · by_cases hne : .phrase name start stop = spot
    · subst hne
      rw [choice?_insert_verdict] at hc
      obtain ⟨before, item, rest, hi, hit, hb⟩ := findSome?_eq_some_iff.1 hc
      have hr : ∀ entry, Ready g chart (.phrase name start stop :: order) (.phrase name start stop)
          (.item stop entry) ↔ (choice? memo (.item stop entry)).isSome := fun entry => by
        rw [ready_cons_self_iff hs, h.isSome_iff]
      refine ⟨before, item, rest, hi, hk _ _ hit, (hr item).2 (Option.isSome_of_eq_some hit), fun passed hp => ?_⟩
      rw [hr, hb passed hp]
      exact Bool.false_ne_true
    · rw [hother hne] at hc
      have hm := ((h.isSome_iff _).1 (Option.isSome_of_eq_some hc)).1
      obtain ⟨before, item, rest, hi, hit, hr, hb⟩ := h.first _ _ _ _ hc
      exact ⟨before, item, rest, hi, hk _ _ hit, (ready_cons_iff hs hm).2 hr, fun passed hp hrp =>
        hb passed hp ((ready_cons_iff hs hm).1 hrp)⟩

/-! ## Settling walks -/

/-- What is known goes along with a walk through a list of spots if it does with each of them. -/
theorem Trail.exists_walk {step : Spot → Memo → Memo → Prop} (ht : Trail step spots memo after)
    (hs : ∀ {spot memo after before}, step spot memo after → Records g chart opened before memo →
      ∃ order, Walk g chart opened [spot] before order ∧ Records g chart opened order after)
    (h : Records g chart opened before memo) :
    ∃ order, Walk g chart opened spots before order ∧ Records g chart opened order after := by
  induction ht with
  | nil => exact ⟨before, .nil, h⟩
  | cons _ hl ih =>
    obtain ⟨middle, hw, hm⟩ := ih h
    obtain ⟨order, hws, ho⟩ := hs hl hm
    exact ⟨order, hw.cons hws, ho⟩

theorem Settles.exists_walk (hs : Settles g chart spot memo after) (h : Records g chart opened before memo) :
    ∃ order, Walk g chart opened [spot] before order ∧ Records g chart opened order after := by
  revert opened before
  refine Settles.induction (motive := fun spot memo after => ∀ {opened before}, Records g chart opened before memo →
    ∃ order, Walk g chart opened [spot] before order ∧ Records g chart opened order after) ?_ ?_ hs
  · intro spot memo hk opened before h
    exact ⟨before, .known .nil ((h.contains_iff spot).1 hk), h⟩
  · intro spot memo after hn ht opened before h
    obtain ⟨order, hw, ho⟩ := ht.exists_walk (fun hst => hst.2) (h.insert_unsettled hn)
    rw [h.contains_iff, not_or] at hn
    have hm : spot ∉ order := hw.not_mem mem_cons_self hn.2
    exact ⟨spot :: order, .fresh .nil hn.1 hn.2 hw, ho.insert_verdict hm⟩

/-- Settling a phrase by itself goes depth first through what it leads to, and gives a derivation to the spots that have
one in the order in which they are left behind. -/
theorem exists_walk_solve (h : Sane g kinds chart.column gaps) (name : String) (start stop : Nat) :
    ∃ order, Walk g chart [] [.phrase name start stop] [] order ∧
      Records g chart [] order (solve g chart name start stop) :=
  (settles_solve h name start stop).exists_walk (records_empty g chart)

/-- Where a spot was not ready for one that depends on it, a cycle is reached from it. -/
theorem Records.not_acyclic_of_not_ready {root next : Spot} (h : Records g chart [] order memo)
    (hw : Walk g chart [] [root] [] order) (hp : Principled g chart memo)
    (ho : ∀ spot : Spot, memo[spot]? ≠ some .unsettled) (hs : spot ∈ order) (hl : Leads g chart spot next)
    (hn : ¬ Ready g chart order spot next) : ¬ Acyclic g chart next := by
  intro ha
  rcases hw.before_or_cycle (forall_mem_nil _) hs not_mem_nil hl with hb | hc
  · have hm : next ∈ order := hb.subset (by simp)
    have he := hp next ha ((h.contains_iff next).2 (.inr hm)) (ho next)
    exact hn ⟨hb, ((h.isSome_iff next).1 he.isSome).2⟩
  · exact ha next .refl (hc.tail hl)

end Forest

end TreeLint
