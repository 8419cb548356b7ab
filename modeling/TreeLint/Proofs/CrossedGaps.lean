import TreeLint.Proofs.Parsing

/-!
# Gaps that derivations cross

Where a gap begins, no item waits for the token at hand, so a derivation that comes to this place goes on only by
skipping. Every derivation through the links of a chart therefore crosses exactly the gaps that begin inside its range,
each once and in order, whatever it is a derivation of.

* `Chart.ordered_read`: the gaps of a chart follow each other;
* `Forest.Linked`: a derivation of a spot through links of the chart;
* `Forest.Linked.gaps_eq`: the gaps that it crosses;
* `Forest.linked_solve`: what is selected is such a derivation;
* `Forest.recoveries_eq`: so the recoveries of a parse are the gaps in what was parsed.
-/

namespace TreeLint

open List

namespace Chart

variable {g : Grammar} {kinds : Array String} {bound : Int} {columns : Array Column} {gaps : List Gap}
  {position : Nat} {kernel : Column}

/-! ## Gaps in order -/

/-- Gaps over something that follow each other. -/
structure Ordered (gaps : List Gap) : Prop where
  apart : gaps.Pairwise fun first second => first.stop ≤ second.start
  proper : ∀ gap ∈ gaps, gap.start < gap.stop

theorem Ordered.sublist {part all : List Gap} (h : Ordered all) (hs : part.Sublist all) : Ordered part :=
  ⟨h.apart.sublist hs, fun gap hg => h.proper gap (hs.subset hg)⟩

/-- While a chart is read, its gaps lie before the position that has been reached. -/
theorem Reaches.ordered (h : Reaches g kinds bound columns gaps position kernel) :
    Ordered gaps ∧ ∀ gap ∈ gaps, gap.stop ≤ position := by
  induction h with
  | seed => exact ⟨⟨.nil, forall_mem_nil _⟩, forall_mem_nil _⟩
  | scan _ _ ih => exact ⟨ih.1, fun gap hg => Nat.le_succ_of_le (ih.2 gap hg)⟩
  | @skip _ gaps position target _ _ _ _ hr ih =>
    have hlt := lt_of_resync? hr
    obtain ⟨ho, hb⟩ := ih
    refine ⟨⟨?_, ?_⟩, ?_⟩
    · refine pairwise_append.2 ⟨ho.apart, pairwise_singleton .., ?_⟩
      intro gap hg last hl
      rw [mem_singleton] at hl
      subst hl
      exact hb gap hg
    · intro gap hg
      rcases mem_append.1 hg with hg | hg
      · exact ho.proper gap hg
      · rw [mem_singleton] at hg
        subst hg
        exact hlt
    · intro gap hg
      rcases mem_append.1 hg with hg | hg
      · have := hb gap hg
        omega
      · rw [mem_singleton] at hg
        subst hg
        exact Nat.le_refl _

theorem ordered_read (g : Grammar) (kinds : Array String) (bound : Int) :
    Ordered (read g kinds bound).gaps := by
  obtain ⟨columns, gaps, position, kernel, hr, -, hg, -⟩ :=
    readFrom_reaches (Reaches.seed : Reaches g kinds bound _ _ _ _)
  rw [read, hg]
  exact hr.ordered.1

/-- The gaps that begin at one position or after it, and before another. -/
def gapsBetween (gaps : List Gap) (start stop : Nat) : List Gap :=
  gaps.filter fun gap => start ≤ gap.start && gap.start < stop

private theorem gapsBetween_self (gaps : List Gap) (position : Nat) : gapsBetween gaps position position = [] := by
  rw [gapsBetween, filter_eq_nil_iff]
  intro gap _ hg
  simp only [Bool.and_eq_true, decide_eq_true_eq] at hg
  omega

private theorem gapsBetween_append (h : Ordered gaps) {start middle stop : Nat} (hs : start ≤ middle)
    (hst : middle ≤ stop) :
    gapsBetween gaps start middle ++ gapsBetween gaps middle stop = gapsBetween gaps start stop := by
  obtain ⟨ha, hp⟩ := h
  unfold gapsBetween
  induction gaps with
  | nil => rfl
  | cons gap gaps ih =>
    rw [pairwise_cons] at ha
    rw [forall_mem_cons] at hp
    have hr := ih ha.2 hp.2
    have hb : ∀ other ∈ gaps, gap.start < other.start := fun other ho =>
      Nat.lt_of_lt_of_le hp.1 (ha.1 other ho)
    by_cases hbf : gap.start < middle
    · by_cases hi : start ≤ gap.start
      · rw [filter_cons_of_pos (by simp; omega), filter_cons_of_neg (by simp; omega),
          filter_cons_of_pos (by simp; omega), cons_append, hr]
      · rw [filter_cons_of_neg (by simp; omega), filter_cons_of_neg (by simp; omega),
          filter_cons_of_neg (by simp; omega), hr]
    · -- all that follows begins behind the middle
      have hn : gaps.filter (fun other => start ≤ other.start && other.start < middle) = [] := by
        rw [filter_eq_nil_iff]
        intro other ho hbt
        have := hb other ho
        simp only [Bool.and_eq_true, decide_eq_true_eq] at hbt
        omega
      rw [hn, nil_append] at hr
      rw [filter_cons_of_neg (by simp; omega), hn, nil_append]
      by_cases hi : gap.start < stop
      · rw [filter_cons_of_pos (by simp; omega), filter_cons_of_pos (by simp; omega), hr]
      · rw [filter_cons_of_neg (by simp; omega), filter_cons_of_neg (by simp; omega), hr]

/-- Only one gap begins inside a gap: itself. -/
private theorem gapsBetween_of_mem (h : Ordered gaps) {gap : Gap} (hg : gap ∈ gaps) :
    gapsBetween gaps gap.start gap.stop = [gap] := by
  obtain ⟨before, after, rfl⟩ := append_of_mem hg
  obtain ⟨ha, hp⟩ := h
  rw [pairwise_append, pairwise_cons] at ha
  obtain ⟨-, ⟨haf, -⟩, hb⟩ := ha
  have hn : ∀ others : List Gap, (∀ other ∈ others, other.start < gap.start ∨ gap.stop ≤ other.start) →
      others.filter (fun other => gap.start ≤ other.start && other.start < gap.stop) = [] := by
    intro others ho
    rw [filter_eq_nil_iff]
    intro other hot hbt
    have := ho other hot
    simp only [Bool.and_eq_true, decide_eq_true_eq] at hbt
    omega
  have hlt := hp gap hg
  rw [gapsBetween, filter_append, filter_cons_of_pos (by simp; omega), hn before, hn after]
  · rfl
  · exact fun other hot => .inr (haf other hot)
  · intro other hot
    have := hb other hot gap mem_cons_self
    have := hp other (mem_append_left _ hot)
    exact .inl (by omega)

end Chart

/-! ## Gaps of a derivation -/

namespace Derivation

theorem induction {motive : Derivation → Prop} (token : ∀ position, motive (.token position))
    (phrase : ∀ name start stop parts, (∀ part ∈ parts, motive part) → motive (.phrase name start stop parts))
    (empty : ∀ name position parts, (∀ part ∈ parts, motive part) → motive (.empty name position parts))
    (skipped : ∀ start stop, motive (.skipped start stop)) (deriv : Derivation) : motive deriv :=
  @Derivation.rec motive (fun parts => ∀ part ∈ parts, motive part) token phrase empty skipped (forall_mem_nil _)
    (fun _ _ hf hr _ hm => (mem_cons.1 hm).elim (fun heq => heq ▸ hf) (hr _)) deriv

mutual

/-- The gaps that a derivation crosses, in order. -/
def gaps : Derivation → List Chart.Gap
  | .token _ => []
  | .phrase _ _ _ parts => gapsOfAll parts
  | .empty _ _ parts => gapsOfAll parts
  | .skipped start stop => [⟨start, stop⟩]

def gapsOfAll : List Derivation → List Chart.Gap
  | [] => []
  | part :: parts => gaps part ++ gapsOfAll parts

end

private theorem gapsOfAll_snoc (parts : List Derivation) (part : Derivation) :
    gapsOfAll (parts ++ [part]) = gapsOfAll parts ++ part.gaps := by
  induction parts with
  | nil => exact append_nil _
  | cons other parts ih => rw [cons_append, gapsOfAll, gapsOfAll, ih, append_assoc]

private theorem length_gapsOfAll_of {parts : List Derivation}
    (h : ∀ part ∈ parts, part.gaps.length = part.skips) : (gapsOfAll parts).length = skipsOfAll parts := by
  induction parts with
  | nil => rfl
  | cons part parts ih =>
    rw [forall_mem_cons] at h
    rw [gapsOfAll, skipsOfAll, length_append, h.1, ih h.2]

private theorem length_gaps (deriv : Derivation) : deriv.gaps.length = deriv.skips := by
  induction deriv using Derivation.induction with
  | token | skipped => rfl
  | phrase _ _ _ _ ih | empty _ _ _ ih => exact length_gapsOfAll_of ih

theorem length_gapsOfAll (parts : List Derivation) : (gapsOfAll parts).length = skipsOfAll parts :=
  length_gapsOfAll_of fun part _ => part.length_gaps

theorem Valid.gaps_eq_nil {g : Grammar} {kinds : Array String} {deriv : Derivation}
    (h : deriv.Valid g kinds []) : deriv.gaps = [] := by
  rw [← length_eq_zero_iff, length_gaps]
  exact h.skips_eq_zero

end Derivation

namespace Forest

open Chart (Item Link Column Sane Founded Faithful gapsBetween)

variable {g : Grammar} {chart : Chart} {kinds : Array String} {gaps : List Chart.Gap}
  {spot other : Spot} {memo after : Memo} {choice : Choice} {parts : List Derivation}

/-! ## Derivations through links -/

/-- Parts of a derivation of a spot, from the last to the first, that follow links of the chart. Over nothing any
derivation will do. -/
inductive Linked (grammar : Grammar) (kinds : Array String) (chart : Chart) : Spot → List Derivation → Prop
  | start {position : Nat} {item : Item} : item ∈ (chart.column position).items → item.dot = 0 →
      item.origin = position → Linked grammar kinds chart (.item position item) []
  | token {position start : Nat} {item : Item} {parts : List Derivation} :
      .token start ∈ linksOf chart position item → Linked grammar kinds chart (.item start item.retreat) parts →
        Linked grammar kinds chart (.item position item) (.token start :: parts)
  | phrase {position start : Nat} {item : Item} {name : String} {parts inner : List Derivation} :
      .phrase start name ∈ linksOf chart position item → Linked grammar kinds chart (.item start item.retreat) parts →
          Linked grammar kinds chart (.phrase name start position) inner →
            Linked grammar kinds chart (.item position item) (.phrase name start position inner.reverse :: parts)
  | empty {position : Nat} {item : Item} {name : String} {parts inner : List Derivation} :
      .empty name ∈ linksOf chart position item → Linked grammar kinds chart (.item position item.retreat) parts →
        (Derivation.empty name position inner).Valid grammar kinds [] →
          Linked grammar kinds chart (.item position item) (.empty name position inner :: parts)
  | skip {position start : Nat} {item : Item} {parts : List Derivation} :
      .skip start ∈ linksOf chart position item → Linked grammar kinds chart (.item start item) parts →
        Linked grammar kinds chart (.item position item) (.skipped start position :: parts)
  | whole {start stop : Nat} {alternative : Grammar.FlatAlternative} {parts : List Derivation} :
      alternative ∈ grammar.alternatives.toList →
        (⟨alternative.id, alternative.symbols.length, start⟩ : Item) ∈ (chart.column stop).items →
          Linked grammar kinds chart (.item stop ⟨alternative.id, alternative.symbols.length, start⟩) parts →
            Linked grammar kinds chart (.phrase alternative.lhs start stop) parts

/-- A derivation through links crosses the gaps that begin inside its range, each once and in order. -/
theorem Linked.gaps_eq (hl : Linked g kinds chart spot parts) (h : Faithful g kinds chart)
    (ho : Chart.Ordered chart.gaps) :
    Derivation.gapsOfAll parts.reverse = gapsBetween chart.gaps spot.start spot.stop := by
  have hori : ∀ {position item}, item ∈ (chart.column position).items → item.origin ≤ position := fun hi =>
    ((h.sane.sound _).fits _ hi).choose_spec.2.2
  induction hl with
  | start _ _ hs =>
    rw [Spot.start, Spot.stop, hs, Chart.gapsBetween_self]
    rfl
  | @token _ place _ _ hln _ ih =>
    rw [reverse_cons, Derivation.gapsOfAll_snoc, ih]
    cases h.sane.reached hln with
    | @token _ before hi _ hn =>
      -- no gap begins where an item waits for the token at hand
      have hnn : gapsBetween chart.gaps place (place + 1) = [] := by
        rw [gapsBetween, filter_eq_nil_iff]
        intro gap hg hb
        simp only [Bool.and_eq_true, decide_eq_true_eq] at hb
        obtain rfl : gap.start = place := by omega
        exact (h.gap_blocked gap hg).2.2 before hi hn
      have ha := Chart.gapsBetween_append ho (hori hi) (Nat.le_succ place)
      rw [hnn] at ha
      exact ha
  | phrase hln _ _ ih ihphrase =>
    rw [reverse_cons, Derivation.gapsOfAll_snoc, ih, Derivation.gaps, ihphrase]
    cases h.sane.reached hln with
    | phrase hi _ hlt => exact Chart.gapsBetween_append ho (hori hi) (Nat.le_of_lt hlt)
  | empty hln _ hv ih =>
    rw [reverse_cons, Derivation.gapsOfAll_snoc, ih, hv.gaps_eq_nil, append_nil]
    rfl
  | skip hln _ ih =>
    rw [reverse_cons, Derivation.gapsOfAll_snoc, ih, Derivation.gaps]
    cases h.sane.reached hln with
    | skip hi _ hg hlt =>
      rw [← Chart.gapsBetween_of_mem ho hg]
      exact Chart.gapsBetween_append ho (hori hi) (Nat.le_of_lt hlt)
  | whole _ _ _ ih => exact ih

/-! ## Selected derivations -/

private theorem linked_throughLink (h : Sane g kinds chart.column gaps) (hg : g.Tabulated)
    (hm : ∀ other choice, choice? memo other = some choice → Linked g kinds chart other choice.parts)
    {position : Nat} {item : Item} {link : Link} (hl : link ∈ linksOf chart position item)
    (hc : throughLink g memo position item link = some choice) :
    Linked g kinds chart (.item position item) choice.parts := by
  cases link with
  | token start =>
    obtain ⟨before, hb, heq⟩ := Option.bind_eq_some_iff.1 hc
    cases heq
    exact .token hl (hm _ _ hb)
  | phrase start name =>
    obtain ⟨before, hb, hr⟩ := Option.bind_eq_some_iff.1 hc
    obtain ⟨phrase, hp, heq⟩ := Option.bind_eq_some_iff.1 hr
    cases heq
    exact .phrase hl (hm _ _ hb) (hm _ _ hp)
  | empty name =>
    obtain ⟨before, hb, heq⟩ := Option.bind_eq_some_iff.1 hc
    cases heq
    cases h.reached hl with
    | empty _ _ hn =>
      obtain ⟨inner, -, hi⟩ := Grammar.exists_emptyDerivation_eq hg hn position
      have hv := Grammar.valid_emptyDerivation hg kinds [] hn position
      rw [hi] at hv ⊢
      exact .empty hl (hm _ _ hb) hv
  | skip start =>
    obtain ⟨before, hb, heq⟩ := Option.bind_eq_some_iff.1 hc
    cases heq
    exact .skip hl (hm _ _ hb)

/-- What is selected for a spot follows links, if what was selected before does. -/
private theorem linked_choose (h : Sane g kinds chart.column gaps) (hg : g.Tabulated)
    (hs : Proper g chart spot)
    (hm : ∀ other choice, choice? memo other = some choice → Linked g kinds chart other choice.parts)
    (hc : choose g chart memo spot = some choice) : Linked g kinds chart spot choice.parts := by
  cases spot with
  | item position item =>
    rcases chooseItem_cases h hs.2 hc with ⟨hd, ho, rfl⟩ | ⟨link, hl, ht⟩
    · exact .start hs.2 hd ho
    · exact linked_throughLink h hg hm hl ht
  | phrase name start stop =>
    obtain ⟨item, hi, hf⟩ := exists_of_findSome?_eq_some hc
    obtain ⟨alt, hmm, rfl, rfl, hcl⟩ := (mem_completeItems_iff h).1 hi
    exact .whole hmm hcl (hm _ _ hf)

theorem linked_solve (h : Sane g kinds chart.column gaps) (hg : g.Tabulated) {name : String}
    {start stop : Nat} (hp : Founded g chart.column (.phrase name start stop)) (hlt : start < stop) :
    ∀ other choice, choice? (solve g chart name start stop) other = some choice →
      Linked g kinds chart other choice.parts :=
  (settles_solve h name start stop).choices (fun _ _ _ _ _ => id) h hg (fun hs hm => linked_choose h hg hs hm) ⟨hp, hlt⟩
    fun other choice hc => by simp [choice?] at hc

/-! ## Parsed forests -/

variable {tokens : List Token} {cfg : Config}

theorem ordered_gaps (g : Grammar) (tokens : List Token) (cfg : Config) :
    Chart.Ordered (parse g tokens cfg).chart.gaps := by
  rw [(parse_keepsake g tokens cfg).chart_eq]
  exact Chart.ordered_read ..

theorem exists_linked_root (hg : g.Tabulated) {stop : Nat}
    (hp : (parse g tokens cfg).parsed = some stop) (hpo : 0 < stop) :
    ∃ parts, (parse g tokens cfg).root? = some (.phrase g.start 0 stop parts.reverse) ∧
      Linked g (meaningfulKinds tokens) (parse g tokens cfg).chart (.phrase g.start 0 stop)
        parts := by
  obtain ⟨hm, hf⟩ := memo_eq_solve hg hp hpo
  obtain ⟨deriv, hr, -⟩ := exists_root?_eq hg hp
  obtain ⟨last, rfl⟩ : ∃ last, stop = last + 1 := ⟨stop - 1, by omega⟩
  have hc := hr
  simp only [root?, hp, (parse_keepsake g tokens cfg).grammar_eq, Option.map_eq_some_iff] at hc
  obtain ⟨choice, hch, rfl⟩ := hc
  rw [hm] at hch
  exact ⟨choice.parts, hr, linked_solve (faithful_parse hg tokens cfg).sane hg hf hpo _ _ hch⟩

theorem gaps_root (hg : g.Tabulated) (tokens : List Token) (cfg : Config) :
    ((parse g tokens cfg).root?.map Derivation.gaps).getD [] =
      gapsBetween (parse g tokens cfg).chart.gaps 0 ((parse g tokens cfg).parsed.getD 0) := by
  cases hp : (parse g tokens cfg).parsed with
  | none =>
    rw [root?_eq_none hp, Option.getD_none, Chart.gapsBetween_self]
    rfl
  | some stop =>
    rcases Nat.eq_zero_or_pos stop with rfl | hpo
    · obtain ⟨deriv, hr, hs, -⟩ := exists_root?_eq hg hp
      rw [hr, Option.map_some, Option.getD_some, Option.getD_some, Chart.gapsBetween_self,
        ← length_eq_zero_iff, Derivation.length_gaps, ← hs, recoveries, hp]
      rfl
    · obtain ⟨parts, hr, hl⟩ := exists_linked_root hg hp hpo
      rw [hr, Option.map_some, Option.getD_some, Option.getD_some]
      exact hl.gaps_eq (faithful_parse hg tokens cfg) (ordered_gaps g tokens cfg)

theorem recoveries_eq (hg : g.Tabulated) (tokens : List Token) (cfg : Config) :
    (parse g tokens cfg).recoveries = (gapsBetween (parse g tokens cfg).chart.gaps 0
        ((parse g tokens cfg).parsed.getD 0)).length := by
  rw [← gaps_root hg]
  cases hp : (parse g tokens cfg).parsed with
  | none =>
    rw [recoveries, hp, root?_eq_none hp]
    rfl
  | some stop =>
    obtain ⟨deriv, hr, hs, -⟩ := exists_root?_eq hg hp
    rw [hr, hs, Option.map_some, Option.getD_some, Derivation.length_gaps]

end Forest

end TreeLint
