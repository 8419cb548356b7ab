import Mathlib.Data.Prod.Lex
import Mathlib.Data.Int.Order.Basic
import TreeLint.Proofs.ExactSettling
import TreeLint.Proofs.Expansion

/-!
# The preferences have one solution

The preferences between derivations are recursive: which link an item takes depends on how often the derivations to which
the links lead skip, and these are selected in the same way. A plan says for every item which link is taken, for every
phrase which alternative, and for every spot how often what is selected skips. Its equations are the preferences
(`Plan.Solves`). Where no nonterminal derives itself they have exactly one solution on the spots that are reached from
the root, and the parts of phrases are read off this solution.

* `preferred?_least`: among derivations through links, the preferred one is the least by skips, by split, and by order;
* `Plan.Solves.agrees`: two solutions agree;
* `Plan.ofMemo`: the solution that has been found;
* `children_follow_preferences`: parts follow the one solution.
-/

namespace TreeLint

open List Grammar

open Relation (ReflTransGen TransGen)

/-! ## Ranks -/

variable {name : String} {assoc : Assoc} {link : Link}

namespace Grammar

variable {description : Description} {grammar : Grammar}

abbrev FlatAlternative.complete (alternative : FlatAlternative) (start : Nat) : Chart.Item :=
  ⟨alternative.id, alternative.symbols.length, start⟩

/-- The alternatives of a nonterminal stand in the order of their ranks. -/
def Ranked (grammar : Grammar) : Prop :=
  ∀ name, (grammar.alternativesOf name).Pairwise fun first second => first.rank < second.rank

theorem Built.ranked (h : Built description grammar) : grammar.Ranked := by
  intro name
  rw [← pairwise_map, h.map_rank]
  exact pairwise_lt_range

private theorem Ranked.eq_of_rank_eq (h : grammar.Ranked) {first second : FlatAlternative}
    (hf : first ∈ grammar.alternativesOf name) (hs : second ∈ grammar.alternativesOf name)
    (hr : first.rank = second.rank) : first = second := by
  have hne : (grammar.alternativesOf name).Pairwise fun first second => first.rank ≠ second.rank :=
    (h name).imp fun hlt => Nat.ne_of_lt hlt
  have hsy : Std.Symm fun first second : FlatAlternative => first.rank ≠ second.rank := ⟨fun _ _ => Ne.symm⟩
  by_contra hd
  exact hne.forall hf hs hd hr

end Grammar

namespace Forest

open Chart (Item Link Column Sane Founded Reached)

variable {grammar : Grammar} {chart : Chart} {kinds : Array String} {gaps : List Chart.Gap} {spot other : Spot}
  {memo after : Memo} {choice : Choice} {position start stop : Nat} {item : Item} {options : List (Choice × Nat)}

/-! ## Preferred links -/

/-- What is compared of the derivation through a link: how often it skips, then where its last part begins, then how
early the link was found. -/
def preferenceKey (assoc : Assoc) (skips split order : Nat) : (ℕ ×ₗ ℤ) ×ₗ ℕ :=
  toLex (toLex (skips, if assoc = .right then (split : ℤ) else -split), order)

private theorem isPreferred_iff (assoc : Assoc) (later earlier : Choice × Nat) : isPreferred assoc later earlier ↔
      (toLex (later.1.skips, if assoc = .right then (later.2 : ℤ) else -later.2) : ℕ ×ₗ ℤ) <
        toLex (earlier.1.skips, if assoc = .right then (earlier.2 : ℤ) else -earlier.2) := by
  rw [Prod.Lex.toLex_lt_toLex, isPreferred]
  by_cases hr : assoc = .right <;> simp [hr]

def better (assoc : Assoc) (best : Option (Choice × Nat)) (option : Choice × Nat) : Option (Choice × Nat) :=
  match best with
  | none => some option
  | some current => some (if isPreferred assoc option current then option else current)

private theorem preferred?_eq (assoc : Assoc) (options : List (Choice × Nat)) :
    preferred? assoc options = (options.foldl (better assoc) none).map (·.1) :=
  rfl

private theorem foldl_better_eq_none (h : options.foldl (better assoc) none = none) : options = [] := by
  cases options with
  | nil => rfl
  | cons first rest =>
    obtain ⟨best, -, hb⟩ := preferred?_cons assoc first rest
    rw [preferred?_eq, h] at hb
    cases hb

private theorem foldl_better_least {best : Choice × Nat} (h : options.foldl (better assoc) none = some best) :
    ∃ order, options[order]? = some best ∧ ∀ otherOrder other, options[otherOrder]? = some other →
      preferenceKey assoc best.1.skips best.2 order ≤ preferenceKey assoc other.1.skips other.2 otherOrder := by
  induction options using List.reverseRecOn generalizing best with
  | nil => cases h
  | append_singleton options last ih =>
    rw [foldl_append, foldl_cons, foldl_nil] at h
    have hc : ∀ {order other}, (options ++ [last])[order]? = some other →
        options[order]? = some other ∨ order = options.length ∧ last = other := by
      intro order other ho
      rcases Nat.lt_or_ge order options.length with hlt | hge
      · exact .inl (by rwa [getElem?_append_left hlt] at ho)
      · rw [getElem?_append_right hge] at ho
        obtain ⟨hz, heq⟩ : order - options.length = 0 ∧ last = other := by
          cases hd : order - options.length <;> simp_all
        exact .inr ⟨by omega, heq⟩
    cases hf : options.foldl (better assoc) none with
    | none =>
      obtain rfl := foldl_better_eq_none hf
      cases h
      refine ⟨0, rfl, fun otherOrder other ho => ?_⟩
      rcases hc ho with hn | ⟨rfl, rfl⟩
      · cases hn
      · exact le_refl _
    | some current =>
      obtain ⟨order, hord, hl⟩ := ih hf
      have hlt := (List.getElem?_eq_some_iff.1 hord).1
      rw [hf, better, Option.some.injEq] at h
      split at h
      next hp =>
        subst h
        rw [isPreferred_iff] at hp
        refine ⟨options.length, by simp, fun otherOrder other ho => ?_⟩
        rcases hc ho with ho | ⟨rfl, rfl⟩
        · exact le_trans (le_of_lt (Prod.Lex.toLex_lt_toLex.2 (.inl hp))) (hl otherOrder other ho)
        · exact le_refl _
      next hp =>
        subst h
        rw [isPreferred_iff, not_lt] at hp
        refine ⟨order, by rwa [getElem?_append_left hlt], fun otherOrder other ho => ?_⟩
        rcases hc ho with ho | ⟨rfl, rfl⟩
        · exact hl otherOrder other ho
        · refine Prod.Lex.toLex_le_toLex.2 ?_
          exact (lt_or_eq_of_le hp).imp_right fun heq => ⟨heq, Nat.le_of_lt hlt⟩

theorem preferred?_least (h : preferred? assoc options = some choice) :
    ∃ order split, options[order]? = some (choice, split) ∧ ∀ otherOrder other, options[otherOrder]? = some other →
      preferenceKey assoc choice.skips split order ≤ preferenceKey assoc other.1.skips other.2 otherOrder := by
  obtain ⟨best, hb, rfl⟩ := Option.map_eq_some_iff.1 h
  obtain ⟨order, ho, hl⟩ := foldl_better_least hb
  exact ⟨order, best.2, ho, hl⟩

/-! ## First alternatives -/

/-- An item that stands among the complete ones belongs to an alternative, and all alternatives of lower rank that are
complete stand before it. -/
theorem exists_alternative_of_completeItems (h : Sane grammar kinds chart.column gaps) (hr : grammar.Ranked)
    {before rest : List Item} (hi : completeItems grammar chart name start stop = before ++ item :: rest) :
    ∃ alt ∈ grammar.alternativesOf name, item = alt.complete start ∧
      item ∈ (chart.column stop).items ∧ ∀ earlier ∈ grammar.alternativesOf name, earlier.rank < alt.rank →
        earlier.complete start ∈ (chart.column stop).items → earlier.complete start ∈ before := by
  rw [completeItems, filter_map] at hi
  obtain ⟨first, second, hs, rfl, hsc⟩ := map_eq_append_iff.1 hi
  obtain ⟨alt, others, rfl, rfl, -⟩ := map_eq_cons_iff.1 hsc
  have hsr : (first ++ alt :: others).Pairwise fun first second => first.rank < second.rank :=
    hs ▸ (hr name).filter _
  have hm : ∀ {found : Grammar.FlatAlternative}, found ∈ first ++ alt :: others ↔
      found ∈ grammar.alternativesOf name ∧ found.complete start ∈ (chart.column stop).items := by
    intro found
    rw [← hs, mem_filter, Function.comp_apply, (h.sound stop).coherent.has_iff]
  obtain ⟨ha, hit⟩ := hm.1 (mem_append_right _ mem_cons_self)
  refine ⟨alt, ha, rfl, hit, fun earlier he hrn hc => ?_⟩
  rcases mem_append.1 (hm.2 ⟨he, hc⟩) with hf | hl
  · exact mem_map_of_mem hf
  · rw [pairwise_append, pairwise_cons] at hsr
    rcases mem_cons.1 hl with rfl | hl
    · exact absurd hrn (Nat.lt_irrefl _)
    · have := hsr.2.1.1 earlier hl
      omega

/-! ## Plans -/

/-- What could be selected: for a spot how often the derivation skips, for a phrase the item of an alternative, and for
an item the link to its last part. -/
structure Plan where
  skips : Spot → Nat
  item : String → Nat → Nat → Item
  link : Nat → Item → Option Link

namespace Plan

variable (plan : Plan)

/-- How often the derivation through a link skips. -/
def cost (position : Nat) (item : Item) : Link → Nat
  | .token start => plan.skips (.item start item.retreat)
  | .phrase start name => plan.skips (.item start item.retreat) + plan.skips (.phrase name start position)
  | .empty _ => plan.skips (.item position item.retreat)
  | .skip start => plan.skips (.item start item) + 1

def key (grammar : Grammar) (position : Nat) (item : Item) (link : Link) (order : Nat) : (ℕ ×ₗ ℤ) ×ₗ ℕ :=
  preferenceKey (grammar.alternatives.getD item.alternative default).assoc (plan.cost position item link)
    (split position link) order

/-- The preferences at a spot. A phrase takes the complete alternative of lowest rank. An item without links is the
beginning of an alternative, and any other one takes its least link. -/
def Solves (grammar : Grammar) (chart : Chart) : Spot → Prop
  | .phrase name start stop => ∃ alternative ∈ grammar.alternativesOf name,
      plan.item name start stop = alternative.complete start ∧
      alternative.complete start ∈ (chart.column stop).items ∧
      (∀ other ∈ grammar.alternativesOf name, other.complete start ∈ (chart.column stop).items →
        alternative.rank ≤ other.rank) ∧
      plan.skips (.phrase name start stop) = plan.skips (.item stop (alternative.complete start))
  | .item position item =>
    match plan.link position item with
    | none => linksOf chart position item = [] ∧ item.dot = 0 ∧ plan.skips (.item position item) = 0
    | some link => ∃ order, (linksOf chart position item)[order]? = some link ∧
        plan.skips (.item position item) = plan.cost position item link ∧
        ∀ otherOrder other, (linksOf chart position item)[otherOrder]? = some other →
          plan.key grammar position item link order ≤ plan.key grammar position item other otherOrder

variable {plan} in
private theorem solves_item_of_none (hl : plan.link position item = none) :
    plan.Solves grammar chart (.item position item) ↔
      linksOf chart position item = [] ∧ item.dot = 0 ∧ plan.skips (.item position item) = 0 := by
  simp only [Solves, hl]

variable {plan} in
private theorem solves_item_of_some (hl : plan.link position item = some link) :
    plan.Solves grammar chart (.item position item) ↔ ∃ order, (linksOf chart position item)[order]? = some link ∧
      plan.skips (.item position item) = plan.cost position item link ∧
      ∀ otherOrder other, (linksOf chart position item)[otherOrder]? = some other →
        plan.key grammar position item link order ≤ plan.key grammar position item other otherOrder := by
  simp only [Solves, hl]

/-- Two plans say the same about a spot. -/
def Agrees (other : Plan) : Spot → Prop
  | .phrase name start stop => plan.item name start stop = other.item name start stop ∧
      plan.skips (.phrase name start stop) = other.skips (.phrase name start stop)
  | .item position item => plan.link position item = other.link position item ∧
      plan.skips (.item position item) = other.skips (.item position item)

variable {plan} {plan' : Plan}

private theorem Agrees.skips_eq (h : plan.Agrees plan' spot) : plan.skips spot = plan'.skips spot := by
  cases spot with
  | phrase | item => exact h.2

private theorem cost_congr (h : ∀ next ∈ linkSpots position item link, plan.skips next = plan'.skips next) :
    plan.cost position item link = plan'.cost position item link := by
  cases link with
  | token start | empty name => exact h _ mem_cons_self
  | phrase start name =>
    rw [cost, cost, h _ mem_cons_self, h _ (mem_cons_of_mem _ mem_cons_self)]
  | skip start => rw [cost, cost, h _ mem_cons_self]

private theorem leads_complete (h : Sane grammar kinds chart.column gaps) {alt : Grammar.FlatAlternative}
    (ha : alt ∈ grammar.alternativesOf name)
    (hi : alt.complete start ∈ (chart.column stop).items) :
    Leads grammar chart (.phrase name start stop) (.item stop (alt.complete start)) := by
  obtain ⟨hm, hl⟩ := mem_alternativesOf_iff.1 ha
  exact mem_map_of_mem ((mem_completeItems_iff h).2 ⟨alt, hm, hl, rfl, hi⟩)

/-- Two solutions agree about a spot if they agree about those on which it depends. -/
private theorem Solves.agrees_of_leads (hs : Sane grammar kinds chart.column gaps) (hr : grammar.Ranked)
    (h : plan.Solves grammar chart spot) (h' : plan'.Solves grammar chart spot)
    (hn : ∀ next, Leads grammar chart spot next → plan.Agrees plan' next) : plan.Agrees plan' spot := by
  cases spot with
  | phrase name start stop =>
    obtain ⟨alt, hm, hi, hc, hl, hsk⟩ := h
    obtain ⟨alternative', hm', hi', hc', hl', hs'⟩ := h'
    obtain rfl : alt = alternative' := hr.eq_of_rank_eq hm hm'
      (Nat.le_antisymm (hl alternative' hm' hc') (hl' alt hm hc))
    refine ⟨hi.trans hi'.symm, ?_⟩
    rw [hsk, hs', (hn _ (leads_complete hs hm hc)).skips_eq]
  | item position item =>
    have hcs : ∀ {order link}, (linksOf chart position item)[order]? = some link →
        plan.cost position item link = plan'.cost position item link := fun hln =>
      cost_congr fun next hm =>
        (hn next (mem_flatMap.2 ⟨_, mem_of_getElem? hln, hm⟩)).skips_eq
    unfold Agrees
    cases hln : plan.link position item with
    | none =>
      rw [solves_item_of_none hln] at h
      cases hln' : plan'.link position item with
      | none =>
        rw [solves_item_of_none hln'] at h'
        exact ⟨hln.trans hln'.symm, h.2.2.trans h'.2.2.symm⟩
      | some link' =>
        rw [solves_item_of_some hln'] at h'
        obtain ⟨order', ho', -⟩ := h'
        rw [h.1] at ho'
        cases ho'
    | some link =>
      rw [solves_item_of_some hln] at h
      obtain ⟨order, ho, hsk, hl⟩ := h
      cases hln' : plan'.link position item with
      | none =>
        rw [solves_item_of_none hln'] at h'
        rw [h'.1] at ho
        cases ho
      | some link' =>
        rw [solves_item_of_some hln'] at h'
        obtain ⟨order', ho', hs', hl'⟩ := h'
        have hle := hl order' link' ho'
        have hge := hl' order link ho
        simp only [key, ← hcs ho, ← hcs ho'] at hle hge
        -- equal keys name the same place in the order
        have hsa := congrArg (fun found : (ℕ ×ₗ ℤ) ×ₗ ℕ => (ofLex found).2) (le_antisymm hle hge)
        obtain rfl : order = order' := hsa
        rw [ho, Option.some.injEq] at ho'
        subst ho'
        exact ⟨hln.trans hln'.symm, by rw [hsk, hs', hcs ho]⟩

/-- Two solutions agree about a spot from which no cycle is reached. -/
theorem Solves.agrees (hs : Sane grammar kinds chart.column gaps) (hr : grammar.Ranked)
    (ha : Acyclic grammar chart spot)
    (h : ∀ next, ReflTransGen (Leads grammar chart) spot next → plan.Solves grammar chart next)
    (h' : ∀ next, ReflTransGen (Leads grammar chart) spot next → plan'.Solves grammar chart next) :
    plan.Agrees plan' spot := by
  revert h h'
  refine Acyclic.induction (motive := fun spot =>
    (∀ next, ReflTransGen (Leads grammar chart) spot next → plan.Solves grammar chart next) →
      (∀ next, ReflTransGen (Leads grammar chart) spot next → plan'.Solves grammar chart next) →
        plan.Agrees plan' spot) hs ?_ ha
  intro spot _ ih h h'
  exact agrees_of_leads hs hr (h spot .refl) (h' spot .refl) fun next hn =>
    ih next hn (fun other ho => h other (.head hn ho)) fun other ho => h' other (.head hn ho)

end Plan

/-! ## The solution that is found -/

def partLink : Derivation → Link
  | .token position => .token position
  | .phrase name start _ _ => .phrase start name
  | .empty name _ _ => .empty name
  | .skipped start _ => .skip start

/-- Where a link at a position comes from: the item before its part, and the position of that item. -/
def linkSource (position : Nat) (item : Item) : Link → Nat × Item
  | .token start => (start, item.retreat)
  | .phrase start _ => (start, item.retreat)
  | .empty _ => (position, item.retreat)
  | .skip start => (start, item)

def Plan.ofMemo (grammar : Grammar) (chart : Chart) (memo : Memo) : Plan where
  skips spot := ((choice? memo spot).map (·.skips)).getD 0
  item name start stop := (completeItems grammar chart name start stop).headD default
  link position item := (choice? memo (.item position item)).bind fun choice => choice.parts.head?.map partLink

private theorem skips_ofMemo (h : choice? memo spot = some choice) :
    (Plan.ofMemo grammar chart memo).skips spot = choice.skips := by
  simp only [Plan.ofMemo, h, Option.map_some, Option.getD_some]

theorem exists_of_throughLink (h : Sane grammar kinds chart.column gaps) (hg : grammar.Tabulated)
    (hl : link ∈ linksOf chart position item) (hc : throughLink grammar memo position item link = some choice) :
    choice.skips = (Plan.ofMemo grammar chart memo).cost position item link ∧
      ∃ part before, choice.parts = part :: before.parts ∧ partLink part = link ∧ part.stop = position ∧
        choice? memo (.item (linkSource position item link).1 (linkSource position item link).2) = some before := by
  cases h.reached hl with
  | @token start item =>
    obtain ⟨before, hb, heq⟩ := Option.bind_eq_some_iff.1 hc
    cases heq
    exact ⟨(skips_ofMemo hb).symm, .token start, before, rfl, rfl, rfl, hb⟩
  | @phrase _ item whole =>
    obtain ⟨before, hb, hr⟩ := Option.bind_eq_some_iff.1 hc
    obtain ⟨phrase, hp, heq⟩ := Option.bind_eq_some_iff.1 hr
    cases heq
    refine ⟨?_, .phrase (grammar.lhsOf whole) whole.origin position phrase.parts.reverse, before, rfl, rfl, rfl, hb⟩
    rw [Plan.cost, skips_ofMemo hb, skips_ofMemo hp]
  | @empty _ item name _ _ hn =>
    obtain ⟨before, hb, heq⟩ := Option.bind_eq_some_iff.1 hc
    cases heq
    obtain ⟨parts, -, hpr⟩ := exists_emptyDerivation_eq hg hn position
    refine ⟨(skips_ofMemo hb).symm, grammar.emptyDerivation name position, before, rfl, ?_, ?_, hb⟩
    · rw [hpr]
      rfl
    · rw [hpr]
      rfl
  | @skip start =>
    obtain ⟨before, hb, heq⟩ := Option.bind_eq_some_iff.1 hc
    cases heq
    refine ⟨?_, .skipped start position, before, rfl, rfl, rfl, hb⟩
    rw [Plan.cost, skips_ofMemo hb]

/-- An item that is settled exactly is at the beginning of an alternative, or takes its least link. -/
theorem ExactAt.item_cases (h : ExactAt grammar chart memo (.item position item)) :
    (linksOf chart position item = [] ∧ item.dot = 0 ∧
      choice? memo (.item position item) = some { skips := 0, parts := [] }) ∨
    ∃ order link choice, (linksOf chart position item)[order]? = some link ∧
      throughLink grammar memo position item link = some choice ∧ choice? memo (.item position item) = some choice ∧
      ∀ otherOrder other, (linksOf chart position item)[otherOrder]? = some other →
        ∃ otherChoice, throughLink grammar memo position item other = some otherChoice ∧
          preferenceKey (grammar.alternatives.getD item.alternative default).assoc choice.skips
              (split position link) order ≤
            preferenceKey (grammar.alternatives.getD item.alternative default).assoc otherChoice.skips
              (split position other) otherOrder := by
  obtain ⟨choice, hc⟩ := Option.isSome_iff_exists.1 h.isSome
  have hch := h.eq_choose.symm
  rw [hc] at hch ⊢
  simp only [choose, chooseItem] at hch
  by_cases hl : (linksOf chart position item).isEmpty
  · rw [if_pos hl] at hch
    split at hch
    next hd => exact .inl ⟨List.isEmpty_iff.1 hl, beq_iff_eq.1 hd, hch.symm⟩
    · cases hch
  · rw [if_neg hl] at hch
    have ht : ∀ link ∈ linksOf chart position item,
        ∃ found, throughLink grammar memo position item link = some found := fun link hln =>
      Option.isSome_iff_exists.1 (isSome_throughLink_iff.2 fun next hn =>
        h.dependencies next (mem_flatMap.2 ⟨link, hln, hn⟩))
    -- no link is without a derivation, so all of them take part
    have ho : (linksOf chart position item).filterMap (fun link =>
        (throughLink grammar memo position item link).map fun choice => (choice, split position link)) =
          (linksOf chart position item).map fun link =>
            ((throughLink grammar memo position item link).getD default, split position link) := by
      rw [← filterMap_eq_map]
      refine filterMap_congr fun link hln => ?_
      obtain ⟨found, hf⟩ := ht link hln
      simp [hf]
    rw [ho] at hch
    obtain ⟨order, start, hord, hls⟩ := preferred?_least hch
    rw [getElem?_map, Option.map_eq_some_iff] at hord
    obtain ⟨link, hln, heq⟩ := hord
    obtain ⟨found, hf⟩ := ht link (mem_of_getElem? hln)
    rw [hf] at heq
    cases heq
    refine .inr ⟨order, link, found, hln, hf, rfl, fun otherOrder other hot => ?_⟩
    obtain ⟨otherFound, hoth⟩ := ht other (mem_of_getElem? hot)
    refine ⟨otherFound, hoth, ?_⟩
    have hle := hls otherOrder (otherFound, split position other)
      (by rw [getElem?_map, hot, Option.map_some, hoth, Option.getD_some])
    exact hle

private theorem Plan.ofMemo_link (h : choice? memo (.item position item) = some choice) :
    (Plan.ofMemo grammar chart memo).link position item = choice.parts.head?.map partLink := by
  simp only [Plan.ofMemo, h, Option.bind_some]

private theorem ExactAt.solves_item (h : Sane grammar kinds chart.column gaps) (hg : grammar.Tabulated)
    (he : ExactAt grammar chart memo (.item position item)) :
    (Plan.ofMemo grammar chart memo).Solves grammar chart (.item position item) := by
  rcases he.item_cases with ⟨hl, hd, hc⟩ | ⟨order, link, choice, hln, ht, hc, hls⟩
  · rw [Plan.solves_item_of_none (Plan.ofMemo_link hc)]
    exact ⟨hl, hd, skips_ofMemo hc⟩
  · obtain ⟨hcs, part, before, hp, rfl, -⟩ := exists_of_throughLink h hg (mem_of_getElem? hln) ht
    have htk : (Plan.ofMemo grammar chart memo).link position item = some (partLink part) := by
      rw [Plan.ofMemo_link hc, hp]
      rfl
    rw [Plan.solves_item_of_some htk]
    refine ⟨order, hln, (skips_ofMemo hc).trans hcs, fun otherOrder other ho => ?_⟩
    obtain ⟨otherChoice, hot, hle⟩ := hls otherOrder other ho
    rw [Plan.key, Plan.key, ← hcs, ← (exists_of_throughLink h hg (mem_of_getElem? ho) hot).1]
    exact hle

theorem Principled.solves_phrase (h : Sane grammar kinds chart.column gaps) (hr : grammar.Ranked)
    (hm : Principled grammar chart memo) (ha : Acyclic grammar chart (.phrase name start stop))
    (hc : choice? memo (.phrase name start stop) = some choice) :
    choice? memo (.item stop ((Plan.ofMemo grammar chart memo).item name start stop)) = some choice ∧
      (Plan.ofMemo grammar chart memo).Solves grammar chart (.phrase name start stop) := by
  have he := hm.exactAt_of_isSome ha (Option.isSome_of_eq_some hc)
  obtain ⟨before, item, rest, hi, hit, hb⟩ := findSome?_eq_some_iff.1 (he.eq_choose.symm.trans hc)
  -- Every alternative has a derivation, so none is passed over.
  obtain rfl : before = [] := by
    refine eq_nil_iff_forall_not_mem.2 fun passed hp => ?_
    have hs := he.dependencies (.item stop passed) (mem_map_of_mem (hi ▸ mem_append_left _ hp))
    rw [hb passed hp] at hs
    cases hs
  have hh : (Plan.ofMemo grammar chart memo).item name start stop = item := by
    simp only [Plan.ofMemo, hi, nil_append, headD_cons]
  obtain ⟨alt, hmm, rfl, hcm, he⟩ := exists_alternative_of_completeItems h hr hi
  refine ⟨hh ▸ hit, alt, hmm, hh, hcm, fun other ho hcl => ?_, (skips_ofMemo hc).trans (skips_ofMemo hit).symm⟩
  by_contra hrn
  exact not_mem_nil (he other ho (Nat.lt_of_not_le hrn) hcl)

/-- The parts that a plan takes from an item on, from the last to the first. -/
inductive Plan.Traces (plan : Plan) : Nat → Item → List Derivation → Prop
  | start {position : Nat} {item : Item} : plan.link position item = none → Traces plan position item []
  | step {position : Nat} {item : Item} {part : Derivation} {parts : List Derivation} :
      plan.link position item = some (partLink part) → part.stop = position →
        Traces plan (linkSource position item (partLink part)).1 (linkSource position item (partLink part)).2 parts →
          Traces plan position item (part :: parts)

private theorem leads_linkSource (grammar : Grammar) (hl : link ∈ linksOf chart position item) :
    Leads grammar chart (.item position item)
      (.item (linkSource position item link).1 (linkSource position item link).2) := by
  refine mem_flatMap.2 ⟨link, hl, ?_⟩
  cases link <;> simp [linkSpots, linkSource]

private theorem traces_ofMemo (h : Sane grammar kinds chart.column gaps) (hg : grammar.Tabulated)
    (ha : Acyclic grammar chart (.item position item))
    (he : ∀ next, ReflTransGen (Leads grammar chart) (.item position item) next → ExactAt grammar chart memo next)
    (hc : choice? memo (.item position item) = some choice) :
    (Plan.ofMemo grammar chart memo).Traces position item choice.parts := by
  suffices hall : ∀ spot, Acyclic grammar chart spot →
      (∀ next, ReflTransGen (Leads grammar chart) spot next → ExactAt grammar chart memo next) →
        ∀ position item choice, spot = .item position item → choice? memo spot = some choice →
          (Plan.ofMemo grammar chart memo).Traces position item choice.parts from
    hall _ ha he position item choice rfl hc
  intro spot hs
  refine Acyclic.induction (motive := fun spot =>
    (∀ next, ReflTransGen (Leads grammar chart) spot next → ExactAt grammar chart memo next) →
      ∀ position item choice, spot = .item position item → choice? memo spot = some choice →
        (Plan.ofMemo grammar chart memo).Traces position item choice.parts) h ?_ hs
  rintro spot - ih he position item choice rfl hc
  rcases (he _ .refl).item_cases with ⟨-, -, hn⟩ | ⟨order, link, found, hl, ht, hf, -⟩
  · rw [hc, Option.some.injEq] at hn
    subst hn
    exact .start (Plan.ofMemo_link hc)
  · rw [hc, Option.some.injEq] at hf
    subst hf
    have hm := mem_of_getElem? hl
    obtain ⟨-, part, before, hp, rfl, hst, hb⟩ := exists_of_throughLink h hg hm ht
    have hld := leads_linkSource grammar hm
    rw [hp]
    refine .step ?_ hst (ih _ hld (fun next hnx => he next (.head hld hnx)) _ _ before rfl hb)
    rw [Plan.ofMemo_link hc, hp]
    rfl

/-- Every spot to which a spot that is settled exactly leads in some steps is settled exactly too. -/
private theorem Principled.exactAt (h : Principled grammar chart memo) (ha : Acyclic grammar chart spot)
    (hs : (choice? memo spot).isSome) (hp : ReflTransGen (Leads grammar chart) spot other) :
    ExactAt grammar chart memo other := by
  induction hp with
  | refl => exact h.exactAt_of_isSome ha hs
  | tail hp hl ih =>
    refine h.exactAt_of_isSome (fun third ht => ha third ?_) (ih.dependencies _ hl)
    exact (hp.tail hl).trans ht

/-! ## Parts of phrases -/

/-- A spot that is reached from the root of a forest through links of its chart. -/
def Reachable (forest : Forest) (spot : Spot) : Prop :=
  ∃ stop, forest.parsed = some stop ∧ 0 < stop ∧
    ReflTransGen (Leads forest.grammar forest.chart) (.phrase forest.grammar.start 0 stop) spot

variable {description : Grammar.Description} {tokens : List Token} {cfg : Config}

/-- What is known of a forest from whose root a spot is reached. -/
structure Insight (grammar : Grammar) (kinds : Array String) (forest : Forest) : Prop where
  principled : Principled grammar forest.chart forest.memo
  correct : Correct grammar kinds forest.chart.gaps forest.memo
  exactAt : ∀ {spot : Spot}, forest.Reachable spot → ExactAt grammar forest.chart forest.memo spot

private theorem insight_parse (hg : grammar.Tabulated) (hs : ∀ name, ¬ grammar.DerivesItself name)
    (hsp : (parse grammar tokens cfg).Reachable spot) :
    Insight grammar (meaningfulKinds tokens) (parse grammar tokens cfg) := by
  have hf := faithful_parse hg tokens cfg
  have hk := parse_keepsake grammar tokens cfg
  obtain ⟨stop, hp, hpo, -⟩ := hsp
  obtain ⟨hm, hfn⟩ := memo_eq_solve hg hp hpo
  generalize parse grammar tokens cfg = forest at *
  have hr := isSome_choice?_solve hf.sane hg hfn hpo
  have hpr := (principled_solve hf.sane hg hfn hpo).1
  rw [← hm] at hr hpr
  refine ⟨hpr, hm ▸ correct_solve hf.sane hg hfn hpo, ?_⟩
  rintro spot ⟨same, hsa, -, hpt⟩
  rw [hp, Option.some.injEq] at hsa
  rw [← hsa, hk.grammar_eq] at hpt
  exact hpr.exactAt (acyclic_of_not_derivesItself hf.sane hg hs _) hr hpt

/-- A phrase that is reached stands over something. -/
theorem Reachable.lt (hg : grammar.Tabulated) (h : (parse grammar tokens cfg).Reachable (.phrase name start stop)) :
    start < stop := by
  obtain ⟨last, -, hpo, hp⟩ := h
  rw [(parse_keepsake grammar tokens cfg).grammar_eq] at hp
  cases hp with
  | refl => exact hpo
  | tail _ hl => exact (proper_of_mem_dependencies (faithful_parse hg tokens cfg).sane hg hl).1.2

/-- Where no nonterminal derives itself, the preferences have exactly one solution on all spots that are reached from
the root, and the parts of every phrase among them are those of the solution. -/
theorem children_follow_preferences (hbuild : Grammar.build description = .ok grammar)
    (hself : ∀ name, ¬ grammar.DerivesItself name) (tokens : List Token) (config : Config) :
    ∃ plan : Plan, (∀ spot, (parse grammar tokens config).Reachable spot →
        plan.Solves grammar (parse grammar tokens config).chart spot) ∧
      (∀ other : Plan, (∀ spot, (parse grammar tokens config).Reachable spot →
          other.Solves grammar (parse grammar tokens config).chart spot) →
        ∀ spot, (parse grammar tokens config).Reachable spot → plan.Agrees other spot) ∧
      ∀ name start stop, (parse grammar tokens config).Reachable (.phrase name start stop) →
        ∃ parts, (parse grammar tokens config).children name start stop = .ok parts ∧
          plan.Traces stop (plan.item name start stop) parts.reverse ∧
          Derivation.skipsOfAll parts = plan.skips (.phrase name start stop) := by
  have hb := built_of_build hbuild
  have hg := hb.tabulated
  have hs := (faithful_parse hg tokens config).sane
  have ha := acyclic_of_not_derivesItself hs hg hself
  have hk := (parse_keepsake grammar tokens config).grammar_eq
  have hsl : ∀ spot, (parse grammar tokens config).Reachable spot →
      (Plan.ofMemo grammar (parse grammar tokens config).chart (parse grammar tokens config).memo).Solves grammar
        (parse grammar tokens config).chart spot := by
    intro spot hsp
    have hi := insight_parse hg hself hsp
    cases spot with
    | item position item => exact (hi.exactAt hsp).solves_item hs hg
    | phrase name start stop =>
      obtain ⟨choice, hc⟩ := Option.isSome_iff_exists.1 (hi.exactAt hsp).isSome
      exact (hi.principled.solves_phrase hs hb.ranked (ha _) hc).2
  have hst : ∀ {spot next}, (parse grammar tokens config).Reachable spot →
      ReflTransGen (Leads grammar (parse grammar tokens config).chart) spot next →
        (parse grammar tokens config).Reachable next := by
    rintro spot next ⟨stop, hp, hpo, hpt⟩ hn
    exact ⟨stop, hp, hpo, hpt.trans (hk.symm ▸ hn)⟩
  refine ⟨_, hsl, fun other ho spot hsp => ?_, fun name start stop hph => ?_⟩
  · exact Plan.Solves.agrees hs hb.ranked (ha spot) (fun next hn => hsl next (hst hsp hn))
      fun next hn => ho next (hst hsp hn)
  · have hi := insight_parse hg hself hph
    obtain ⟨choice, hc⟩ := Option.isSome_iff_exists.1 (hi.exactAt hph).isSome
    obtain ⟨hit, alt, hm, heq, hcm, -⟩ :=
      hi.principled.solves_phrase hs hb.ranked (ha _) hc
    obtain ⟨symbols, -, hse⟩ := hi.correct _ _ hc
    refine ⟨choice.parts.reverse, children_eq_ok (hph.lt hg) hc, ?_, ?_⟩
    · rw [reverse_reverse]
      refine traces_ofMemo hs hg (ha _) (fun next hn => hi.exactAt (hst hph ?_)) hit
      rw [heq] at hn
      exact .head (Plan.leads_complete hs hm hcm) hn
    · rw [← hse.skips, skips_ofMemo hc]

/-- Sums of one kind of token, in which every chain of additions is ambiguous. -/
def sums : Grammar.Description where
  name := "sums"
  productions := [{
    name := "sum"
    alternatives := [{ symbols := [.ref "sum", .literal "+", .ref "sum"] }, { symbols := [.literal "n"] }] }]
  suppression := { directive := "x" }

def threeSummands : List Token :=
  ["n", "+", "n", "+", "n"].map fun kind => { kind, kindId := 0, start := 0, stop := 1, text := [] }

private theorem generates_sums (hb : Grammar.Built sums grammar) :
    (∀ name, ¬ grammar.DerivesItself name) ∧ grammar.start = "sum" ∧
      grammar.Generates grammar.start ["n", "+", "n", "+", "n"] := by
  have hsu : ∃ alt ∈ grammar.alternatives.toList, alt.lhs = "sum" ∧
      alt.symbols = [.nonterminal "sum", .terminal "+", .nonterminal "sum"] := by
    rw [hb.alternatives_eq]
    decide +kernel
  have ho : ∃ alt ∈ grammar.alternatives.toList, alt.lhs = "sum" ∧
      alt.symbols = [.terminal "n"] := by
    rw [hb.alternatives_eq]
    decide +kernel
  have ha : ∀ alt ∈ grammar.alternatives.toList,
      .terminal "+" ∈ alt.symbols ∨ .terminal "n" ∈ alt.symbols := by
    rw [hb.alternatives_eq]
    decide +kernel
  have hs : grammar.start = "sum" := by
    rw [hb.start_eq]
    decide +kernel
  have hn : grammar.Generates "sum" ["n"] := by
    obtain ⟨one, hm, hl, hsy⟩ := ho
    exact generates_iff.2 ⟨one, hm, hl, hsy ▸ .terminal .nil⟩
  have had : ∀ {first second : List String}, grammar.Generates "sum" first → grammar.Generates "sum" second →
      grammar.Generates "sum" (first ++ "+" :: second) := by
    intro first second hf hsc
    obtain ⟨sum, hm, hl, hsy⟩ := hsu
    exact generates_iff.2 ⟨sum, hm, hl, hsy ▸ hf.append (.terminal hsc)⟩
  refine ⟨not_derivesItself_of_terminal fun alt hm => ?_, hs, hs ▸ had hn (had hn hn)⟩
  exact (ha alt hm).elim (fun h => ⟨_, h⟩) fun h => ⟨_, h⟩

/-- A sum of three tokens has a plan, and the whole sum has parts. -/
theorem sums_follow_preferences : ∃ grammar, Grammar.build sums = .ok grammar ∧ (∀ name, ¬ grammar.DerivesItself name) ∧
    (parse grammar threeSummands {}).Reachable (.phrase "sum" 0 5) ∧
    ∃ plan : Plan, plan.Solves grammar (parse grammar threeSummands {}).chart (.phrase "sum" 0 5) ∧
      ∃ parts, (parse grammar threeSummands {}).children "sum" 0 5 = .ok parts ∧
        plan.Traces 5 (plan.item "sum" 0 5) parts.reverse := by
  have hok : (Grammar.build sums).isOk = true := by decide +kernel
  obtain ⟨grammar, hb⟩ := exists_eq_ok hok
  have hbl := built_of_build hb
  obtain ⟨hs, hst, hg⟩ := generates_sums hbl
  have hp : (parse grammar threeSummands {}).parsed = some 5 :=
    parsed_eq_of_generates hbl.tabulated hg
  have hr : (parse grammar threeSummands {}).Reachable (.phrase "sum" 0 5) := by
    refine ⟨5, hp, by decide, ?_⟩
    rw [(parse_keepsake grammar threeSummands {}).grammar_eq, hst]
  obtain ⟨plan, hsl, -, hpr⟩ := children_follow_preferences hb hs threeSummands {}
  obtain ⟨parts, hc, ht, -⟩ := hpr _ _ _ hr
  exact ⟨grammar, hb, hs, hr, plan, hsl _ hr, parts, hc, ht⟩

end Forest

end TreeLint
