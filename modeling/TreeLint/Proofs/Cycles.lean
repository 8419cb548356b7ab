import Mathlib.Data.Set.Finite.List
import Mathlib.Order.WellFounded
import TreeLint.Proofs.Parsing

/-!
# Dependencies without cycles

A spot leads to the spots on which its derivations depend. Where no spot leads back to itself, what holds of a spot as
soon as it holds of those to which it leads holds of all of them (`Acyclic.induction`). A spot that leads back to itself
stands for a nonterminal that derives itself: along a cycle the range stays the same, so all that is next to the phrase
on the cycle derives nothing.

* `Leads`, `Acyclic`: dependencies between spots, and the spots from which no cycle is reached;
* `Grammar.DerivesItself`: nonterminals that are rewritten into themselves;
* `acyclic_of_not_derivesItself`: where no nonterminal derives itself, no cycle is reached from any spot.
-/

namespace TreeLint

open List

open Relation (ReflTransGen TransGen)

/-! ## Rewriting -/

namespace Grammar

def DerivesItself (grammar : Grammar) (name : String) : Prop :=
  TransGen (Rewrites grammar.alternatives.toList) [.nonterminal name] [.nonterminal name]

/-- Where every alternative has a terminal, no nonterminal derives itself: terminals stay. -/
theorem not_derivesItself_of_terminal {g : Grammar}
    (h : ∀ alt ∈ g.alternatives.toList, ∃ kind, .terminal kind ∈ alt.symbols) (name : String) :
    ¬ g.DerivesItself name := by
  intro hs
  obtain ⟨before, -, hl⟩ := TransGen.tail'_iff.1 hs
  generalize hsy : [FlatSymbol.nonterminal name] = symbols at hl
  cases hl with
  | replace first rest hm =>
    obtain ⟨kind, hk⟩ := h _ hm
    have ht : .terminal kind ∈ [FlatSymbol.nonterminal name] := by
      rw [hsy]
      exact mem_append_right _ (mem_append_left _ hk)
    cases mem_singleton.1 ht

end Grammar

namespace Forest

open Chart (Item Link Column Sane Founded Reached)

variable {g : Grammar} {chart : Chart} {kinds : Array String} {gaps : List Chart.Gap} {spot other : Spot}
  {item : Item}

/-! ## Dependencies -/

/-- The derivations of a spot depend on those of another. -/
def Leads (grammar : Grammar) (chart : Chart) (spot other : Spot) : Prop :=
  other ∈ dependencies grammar chart spot

/-- No spot to which a spot leads in some steps leads back to itself. -/
def Acyclic (grammar : Grammar) (chart : Chart) (spot : Spot) : Prop :=
  ∀ other, ReflTransGen (Leads grammar chart) spot other → ¬ TransGen (Leads grammar chart) other other

theorem Acyclic.leads (h : Acyclic g chart spot) (hl : Leads g chart spot other) :
    Acyclic g chart other :=
  fun third ht => h third (.head hl ht)

/-- What holds of a spot if it holds of those on which it depends holds of all from which no cycle is reached. -/
theorem Acyclic.induction {motive : Spot → Prop} (hs : Sane g kinds chart.column gaps)
    (step : ∀ spot, Acyclic g chart spot → (∀ other, Leads g chart spot other → motive other) →
      motive spot) (h : Acyclic g chart spot) : motive spot := by
  -- There are finitely many spots to which a spot can lead.
  let Reachable := { other : Spot // other ∈ allSpots chart spot ∧ Acyclic g chart other }
  have hf : Finite Reachable :=
    ((finite_toSet (allSpots chart spot)).subset fun _ ho => ho.1).to_subtype
  let After : Reachable → Reachable → Prop := fun first second => TransGen (Leads g chart) second.1 first.1
  have ht : IsTrans Reachable After := ⟨fun _ _ _ hfr hsc => hsc.trans hfr⟩
  have hi : Std.Irrefl After := ⟨fun other hc => other.2.2 other.1 .refl hc⟩
  have hwf : WellFounded After := Finite.wellFounded_of_trans_of_irrefl After
  have ha : ∀ other : Reachable, motive other.1 := by
    intro other
    induction other using hwf.induction with
    | _ other ih =>
      refine step other.1 other.2.2 fun next hn => ?_
      exact ih ⟨next, mem_allSpots_of_mem_dependencies hs spot hn, other.2.2.leads hn⟩ (.single hn)
  exact ha ⟨spot, mem_cons_self, h⟩

/-! ## Cycles of a chart come from the grammar -/

def form (grammar : Grammar) : Spot → List Grammar.FlatSymbol
  | .phrase name _ _ => [.nonterminal name]
  | .item _ item => (grammar.alternatives.getD item.alternative default).symbols.take item.dot

private theorem form_eq_of_spells {symbols : List Grammar.FlatSymbol} {pos : Nat}
    (h : Spells g symbols (.item pos item)) : form g (.item pos item) = symbols := by
  obtain ⟨alt, ha, rfl⟩ := h
  rw [form, Array.getD_eq_getD_getElem?, ha, Option.getD_some]

private theorem form_advance {symbol : Grammar.FlatSymbol} (hn : g.next? item = some symbol) (start stop : Nat) :
    form g (.item stop item.advance) = form g (.item start item) ++ [symbol] := by
  obtain ⟨alt, ha, -⟩ := Grammar.next?_eq_some_iff.1 hn
  have hs : Spells g (alt.symbols.take item.dot) (.item start item) :=
    ⟨alt, ha, rfl⟩
  rw [form_eq_of_spells hs, form_eq_of_spells (hs.advance hn)]

/-- How many symbols have been recognized at a spot. -/
def Spot.dot : Spot → Nat
  | .item _ entry => entry.dot
  | .phrase _ _ _ => 0

private theorem range_of_reflTransGen (h : Sane g kinds chart.column gaps) (hg : g.Tabulated)
    (hp : ReflTransGen (Leads g chart) spot other) :
    spot.start ≤ other.start ∧ other.stop ≤ spot.stop := by
  induction hp with
  | refl => exact ⟨Nat.le_refl _, Nat.le_refl _⟩
  | tail _ hl ih =>
    have hi := (proper_of_mem_dependencies h hg hl).2
    omega

/-- An item leads to a spot over the same range by its last symbol: either that derives nothing, or all before it
does. -/
private theorem rewrites_of_item_leads (h : Sane g kinds chart.column gaps) (hg : g.Tabulated) {pos : Nat}
    (hl : Leads g chart (.item pos item) other) (hs : other.start = item.origin)
    (hst : other.stop = pos) :
    ReflTransGen (Grammar.Rewrites g.alternatives.toList) (form g (.item pos item))
        (form g other) ∧
      ((∃ name, other = .phrase name item.origin pos) ∨ other.dot < item.dot) := by
  obtain ⟨link, hln, hm⟩ := mem_flatMap.1 hl
  cases h.reached hln with
  | token =>
    rw [linkSpots, mem_singleton, Item.retreat_advance] at hm
    subst hm
    simp [Spot.stop] at hst
  | @phrase _ item whole hi _ hlt _ hn =>
    rw [linkSpots, mem_pair, Item.retreat_advance] at hm
    rcases hm with rfl | rfl
    · exact absurd hst (Nat.ne_of_lt hlt)
    · obtain ⟨symbols, hsp, hd⟩ :=
        derives_nil_of_origin_eq h hg (h.founded hi) whole.origin item rfl hs.symm
      refine ⟨?_, .inl ⟨_, by rw [← hs]; rfl⟩⟩
      rw [form_advance hn whole.origin, form_eq_of_spells hsp]
      exact hd.rewrites_nil [] _
  | @empty _ item name hi hn hnl =>
    rw [linkSpots, mem_singleton, Item.retreat_advance] at hm
    subst hm
    refine ⟨?_, .inr (Nat.lt_succ_self _)⟩
    have hnt := (hg.isNullable_iff.1 hnl).rewrites_nil (form g (.item pos item)) []
    rwa [append_nil, append_nil, ← form_advance hn pos pos] at hnt
  | skip _ _ _ hlt =>
    rw [linkSpots, mem_singleton] at hm
    subst hm
    exact absurd hst (Nat.ne_of_lt hlt)

private theorem rewrites_of_phrase_leads (h : Sane g kinds chart.column gaps) (hg : g.Tabulated) {name : String}
    {start stop : Nat} (hl : Leads g chart (.phrase name start stop) other) :
    Grammar.Rewrites g.alternatives.toList [.nonterminal name] (form g other) := by
  obtain ⟨item, hi, rfl⟩ := mem_map.1 hl
  obtain ⟨alt, hm, rfl, rfl, -⟩ := (mem_completeItems_iff h).1 hi
  have hs : Spells g alt.symbols
      (.item stop ⟨alt.id, alt.symbols.length, start⟩) :=
    ⟨alt, hg.getElem?_id hm, take_length.symm⟩
  rw [form_eq_of_spells hs]
  exact .of_mem hm

private theorem rewrites_of_leads (h : Sane g kinds chart.column gaps) (hg : g.Tabulated)
    (hl : Leads g chart spot other) (hs : other.start = spot.start) (hst : other.stop = spot.stop) :
    ReflTransGen (Grammar.Rewrites g.alternatives.toList) (form g spot) (form g other) := by
  cases spot with
  | phrase name start stop => exact .single (rewrites_of_phrase_leads h hg hl)
  | item pos item => exact (rewrites_of_item_leads h hg hl hs hst).1

/-- Along a path over one range, what has been recognized is rewritten. -/
private theorem rewrites_of_reflTransGen (h : Sane g kinds chart.column gaps) (hg : g.Tabulated)
    (hp : ReflTransGen (Leads g chart) spot other) (hs : other.start = spot.start)
    (hst : other.stop = spot.stop) :
    ReflTransGen (Grammar.Rewrites g.alternatives.toList) (form g spot) (form g other) := by
  induction hp with
  | refl => exact .refl
  | tail hp hl ih =>
    have hf := range_of_reflTransGen h hg hp
    have hls := (proper_of_mem_dependencies h hg hl).2
    exact (ih (by omega) (by omega)).trans (rewrites_of_leads h hg hl (by omega) (by omega))

/-- A path over one range passes through a phrase, or less and less has been recognized along it. -/
private theorem phrase_or_dot_lt (h : Sane g kinds chart.column gaps) (hg : g.Tabulated)
    (hp : TransGen (Leads g chart) spot other) (hs : other.start = spot.start)
    (hst : other.stop = spot.stop) :
    (∃ name start stop, ReflTransGen (Leads g chart) spot (.phrase name start stop) ∧
      ReflTransGen (Leads g chart) (.phrase name start stop) other) ∨ other.dot < spot.dot := by
  have hste : ∀ {first second}, Leads g chart first second → second.start = first.start →
      second.stop = first.stop →
        (∃ name start stop, first = .phrase name start stop ∨ second = .phrase name start stop) ∨
          second.dot < first.dot := by
    intro first second hl hs hst
    cases first with
    | phrase name start stop => exact .inl ⟨name, start, stop, .inl rfl⟩
    | item pos item =>
      refine (rewrites_of_item_leads h hg hl hs hst).2.imp_left ?_
      rintro ⟨name, heq⟩
      exact ⟨name, item.origin, pos, .inr heq⟩
  induction hp with
  | single hl =>
    refine (hste hl hs hst).imp_left ?_
    rintro ⟨name, start, stop, rfl | rfl⟩
    · exact ⟨name, start, stop, .refl, .single hl⟩
    · exact ⟨name, start, stop, .single hl, .refl⟩
  | @tail middle last hp hl ih =>
    have hf := range_of_reflTransGen h hg hp.to_reflTransGen
    have hls := (proper_of_mem_dependencies h hg hl).2
    rcases ih (by omega) (by omega) with ⟨name, start, stop, hb, ha⟩ | hd
    · exact .inl ⟨name, start, stop, hb, ha.tail hl⟩
    · rcases hste hl (by omega) (by omega) with ⟨name, start, stop, rfl | rfl⟩ | hles
      · exact .inl ⟨name, start, stop, hp.to_reflTransGen, .single hl⟩
      · exact .inl ⟨name, start, stop, hp.to_reflTransGen.tail hl, .refl⟩
      · exact .inr (Nat.lt_trans hles hd)

private theorem derivesItself_of_cycle (h : Sane g kinds chart.column gaps) (hg : g.Tabulated) {name : String}
    {start stop : Nat} (hc : TransGen (Leads g chart) (.phrase name start stop) (.phrase name start stop)) :
    g.DerivesItself name := by
  obtain ⟨middle, hl, hp⟩ := TransGen.head'_iff.1 hc
  have hf := (proper_of_mem_dependencies h hg hl).2
  have hls := range_of_reflTransGen h hg hp
  have hb := rewrites_of_reflTransGen h hg hp (by omega) (by omega)
  exact .head' (rewrites_of_phrase_leads h hg hl) hb

theorem acyclic_of_not_derivesItself (h : Sane g kinds chart.column gaps) (hg : g.Tabulated)
    (hs : ∀ name, ¬ g.DerivesItself name) (spot : Spot) : Acyclic g chart spot := by
  intro other _ hc
  rcases phrase_or_dot_lt h hg hc rfl rfl with ⟨name, start, stop, hb, ha⟩ | hd
  · exact hs name (derivesItself_of_cycle h hg (.trans_right ha (hc.trans_left hb)))
  · exact Nat.lt_irrefl _ hd

end Forest

end TreeLint
