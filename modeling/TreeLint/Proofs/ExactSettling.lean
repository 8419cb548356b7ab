import TreeLint.Proofs.Cycles

/-!
# Settling without cycles

An open spot counts as having no derivation, and only a spot that leads back to itself can meet itself open. Every spot
from which no cycle is reached is therefore settled exactly: all on which it depends has been settled with a derivation,
and what is selected for it is what the preferences say about those (`ExactAt`).

* `Settles.principled`: settling keeps this;
* `principled_solve`: so it holds of what is known after a phrase has been settled by itself.
-/

namespace TreeLint

open List

namespace Forest

open Chart (Item Link Column Sane Founded Reached)
open Relation (ReflTransGen TransGen)

variable {g : Grammar} {chart : Chart} {kinds : Array String} {gaps : List Chart.Gap}
  {spot other : Spot} {memo after : Memo}

/-! ## Choices depend on the dependencies only -/

private theorem throughLink_congr {pos : Nat} {item : Item} {link : Link}
    (h : ∀ next ∈ linkSpots pos item link, choice? after next = choice? memo next) :
    throughLink g after pos item link = throughLink g memo pos item link := by
  cases link with
  | token start | empty name | skip start => rw [throughLink, throughLink, h _ mem_cons_self]
  | phrase start name =>
    rw [throughLink, throughLink, h _ mem_cons_self, h _ (mem_cons_of_mem _ mem_cons_self)]

private theorem choose_congr (h : ∀ next, Leads g chart spot next → choice? after next = choice? memo next) :
    choose g chart after spot = choose g chart memo spot := by
  cases spot with
  | phrase name start stop =>
    rw [choose, choose, ← head?_filterMap, ← head?_filterMap, filterMap_congr fun item hi => h _ (mem_map_of_mem hi)]
  | item pos item =>
    have hl : ∀ link ∈ linksOf chart pos item,
        throughLink g after pos item link = throughLink g memo pos item link :=
      fun link hln => throughLink_congr fun next hn => h next (mem_flatMap.2 ⟨link, hln, hn⟩)
    simp only [choose, chooseItem]
    rw [filterMap_congr fun link hln => by rw [hl link hln]]

private theorem isSome_choose_of_leads (h : Sane g kinds chart.column gaps) (hs : Proper g chart spot)
    (ha : ∀ next, Leads g chart spot next → (choice? memo next).isSome) :
    (choose g chart memo spot).isSome := by
  cases spot with
  | item pos item => exact isSome_choose_of_dependencies h hs.2 ha
  | phrase name start stop =>
    obtain ⟨hf, -⟩ := hs
    cases hf with
    | @phrase _ _ alt hm hi =>
      have hc := (mem_completeItems_iff h).2 ⟨alt, hm, rfl, rfl, hi⟩
      rw [choose, findSome?_isSome_iff]
      exact ⟨_, hc, ha _ (mem_map_of_mem hc)⟩

/-! ## Exact spots -/

/-- All on which a spot depends has a derivation, and the one selected for the spot is the preferred one. -/
structure ExactAt (grammar : Grammar) (chart : Chart) (memo : Memo) (spot : Spot) : Prop where
  isSome : (choice? memo spot).isSome
  eq_choose : choice? memo spot = choose grammar chart memo spot
  dependencies : ∀ next, Leads grammar chart spot next → (choice? memo next).isSome

private theorem Keeps.eq_of_isSome (hk : Keeps memo after) (h : (choice? memo spot).isSome) :
    choice? after spot = choice? memo spot := by
  obtain ⟨choice, hc⟩ := Option.isSome_iff_exists.1 h
  rw [hc, hk spot choice hc]

theorem ExactAt.mono (h : ExactAt g chart memo spot) (hk : Keeps memo after) :
    ExactAt g chart after spot where
  isSome := by rw [hk.eq_of_isSome h.isSome]; exact h.isSome
  eq_choose := by
    rw [hk.eq_of_isSome h.isSome, choose_congr fun next hn => hk.eq_of_isSome (h.dependencies next hn)]
    exact h.eq_choose
  dependencies next hn := by
    rw [hk.eq_of_isSome (h.dependencies next hn)]
    exact h.dependencies next hn

/-- All that is known is exact where no cycle is reached. -/
def Principled (grammar : Grammar) (chart : Chart) (memo : Memo) : Prop :=
  ∀ spot, Acyclic grammar chart spot → memo.contains spot → memo[spot]? ≠ some .unsettled →
    ExactAt grammar chart memo spot

private theorem principled_empty (g : Grammar) (chart : Chart) : Principled g chart ∅ := by
  intro spot _ hk
  simp at hk

theorem Principled.insert {found : Verdict} (h : Principled g chart memo) (hs : choice? memo spot = none)
    (he : Acyclic g chart spot → found ≠ .unsettled → ExactAt g chart (memo.insert spot found) spot) :
    Principled g chart (memo.insert spot found) := by
  intro other ha hk hst
  by_cases hne : other = spot
  · subst hne
    refine he ha fun hfn => hst ?_
    rw [Std.HashMap.getElem?_insert_self, hfn]
  · rw [contains_eq_of_getElem?_eq (getElem?_insert_of_ne hne)] at hk
    rw [getElem?_insert_of_ne hne] at hst
    exact (h other ha hk hst).mono (keeps_insert hs)

theorem Principled.exactAt_of_isSome (h : Principled g chart memo) (ha : Acyclic g chart spot)
    (hs : (choice? memo spot).isSome) : ExactAt g chart memo spot := by
  obtain ⟨hk, -, hu⟩ := isSome_choice?_iff.1 hs
  exact h spot ha hk hu

/-! ## Settling -/

def OpenAbove (grammar : Grammar) (chart : Chart) (memo : Memo) (spot : Spot) : Prop :=
  ∀ other, memo[other]? = some .unsettled → TransGen (Leads grammar chart) other spot

theorem Principled.insert_verdict (h : Principled g chart memo) (hs : Sane g kinds chart.column gaps)
    (hsp : Proper g chart spot) (ho : memo[spot]? = some .unsettled)
    (ha : ∀ other, memo[other]? = some .unsettled → ReflTransGen (Leads g chart) other spot)
    (hk : ∀ next, Leads g chart spot next → memo.contains next) :
    Principled g chart (memo.insert spot (verdict g chart memo spot)) := by
  -- A spot to which an acyclic dependency leads cannot be open: it would lead back to itself.
  have hst : ∀ next, Leads g chart spot next → Acyclic g chart next →
      (choice? memo next).isSome := by
    intro next hn hac
    refine (h next hac (hk next hn) fun hu => ?_).isSome
    exact hac next .refl (.tail' (ha next hu) hn)
  have hnn : choice? memo spot = none := by rw [choice?, ho]
  have hkp : Keeps memo (memo.insert spot (verdict g chart memo spot)) := keeps_insert hnn
  refine h.insert hnn fun hac _ => ?_
  have hall : ∀ next, Leads g chart spot next → (choice? memo next).isSome :=
    fun next hn => hst next hn (hac.leads hn)
  have hsa : choose g chart (memo.insert spot (verdict g chart memo spot)) spot =
      choose g chart memo spot :=
    choose_congr fun next hn => hkp.eq_of_isSome (hall next hn)
  refine ⟨?_, ?_, fun next hn => ?_⟩
  · rw [choice?_insert_verdict]
    exact isSome_choose_of_leads hs hsp hall
  · rw [choice?_insert_verdict, hsa]
  · rw [hkp.eq_of_isSome (hall next hn)]
    exact hall next hn

theorem Settles.principled (hs : Settles g chart spot memo after) (h : Sane g kinds chart.column gaps)
    (hg : g.Tabulated) (hsp : Proper g chart spot) (ha : OpenAbove g chart memo spot)
    (hm : Principled g chart memo) : Principled g chart after := by
  revert hsp ha hm
  refine Settles.induction (motive := fun spot memo after => Proper g chart spot →
    OpenAbove g chart memo spot → Principled g chart memo → Principled g chart after)
    (fun _ _ _ => id) ?_ hs
  intro spot memo after hnw ht hsp ha hm
  have ho : Principled g chart (memo.insert spot .unsettled) :=
    hm.insert (choice?_eq_none hnw) fun _ hne => absurd rfl hne
  have hl : ∀ other, (memo.insert spot .unsettled)[other]? = some .unsettled →
      ReflTransGen (Leads g chart) other spot := by
    intro other hot
    by_cases hne : other = spot
    · exact hne ▸ .refl
    · rw [getElem?_insert_of_ne hne] at hot
      exact (ha other hot).to_reflTransGen
  obtain ⟨haf, hst⟩ : Principled g chart after ∧
      ∀ other, after[other]? = some .unsettled → ReflTransGen (Leads g chart) other spot := by
    refine ht.invariant (fun memo => Principled g chart memo ∧
      ∀ other, memo[other]? = some .unsettled → ReflTransGen (Leads g chart) other spot) ?_ ⟨ho, hl⟩
    rintro next before final hnx ⟨hse, hste⟩ ⟨hb, hop⟩
    refine ⟨hste (proper_of_mem_dependencies h hg hnx).1 (fun other hot => .tail' (hop other hot) hnx)
      hb, fun other hot => hop other ?_⟩
    by_contra hc
    exact hse.settled hc hot
  have hse := ht.imp And.left
  exact haf.insert_verdict h hsp (unsettled_of_trail hse) hst fun next hnx => hse.contains hnx

/-- What is known after a phrase has been settled by itself is principled, and nothing is left open. -/
theorem principled_solve (h : Sane g kinds chart.column gaps) (hg : g.Tabulated) {name : String}
    {start stop : Nat} (hp : Founded g chart.column (.phrase name start stop)) (hlt : start < stop) :
    Principled g chart (solve g chart name start stop) ∧
      ∀ spot : Spot, (solve g chart name start stop)[spot]? ≠ some .unsettled := by
  have hs := settles_solve h name start stop
  refine ⟨hs.principled h hg ⟨hp, hlt⟩ (fun other ho => ?_) (principled_empty g chart), fun spot => hs.settled ?_⟩
  · simp at ho
  · simp

end Forest

end TreeLint
