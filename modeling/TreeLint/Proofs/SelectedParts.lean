import TreeLint.Proofs.Derivations
import TreeLint.Proofs.Selection

/-!
# What is selected is a derivation

While spots are settled, every derivation that has been selected fits its spot (`Selects`): the parts lie one after the
other over its range, they spell the symbols that have been recognized there, they are valid, and each phrase among them
is itself expanded as it was selected.

* `Settles.choices`: what passes from earlier choices to the next one holds of all;
* `selects_solve`: so it holds of what is selected for the root.
-/

namespace TreeLint

open List Grammar

namespace Forest

open Chart (Item Link Column Sane Founded Reached)

/-! ## Expansion -/

/-- A derivation in which every phrase is expanded as selected. -/
inductive Expanded (grammar : Grammar) (memo : Memo) : Derivation → Prop
  | token {position : Nat} : Expanded grammar memo (.token position)
  | phrase {name : String} {start stop : Nat} {choice : Choice} :
      choice? memo (.phrase name start stop) = some choice → (∀ part ∈ choice.parts, Expanded grammar memo part) →
        Expanded grammar memo (.phrase name start stop choice.parts.reverse)
  | empty {name : String} {position : Nat} {parts : List Derivation} :
      grammar.emptyChildren? name position = some parts → (∀ part ∈ parts, Expanded grammar memo part) →
        Expanded grammar memo (.empty name position parts)
  | skipped {start stop : Nat} : Expanded grammar memo (.skipped start stop)

variable {g : Grammar} {chart : Chart} {kinds : Array String} {gaps : List Chart.Gap} {spot other : Spot}
  {memo after : Memo} {choice : Choice} {name : String} {start stop : Nat} {symbols : List FlatSymbol}

def Keeps (memo after : Memo) : Prop :=
  ∀ spot choice, choice? memo spot = some choice → choice? after spot = some choice

theorem Expanded.mono {deriv : Derivation} (h : Expanded g memo deriv) (hk : Keeps memo after) :
    Expanded g after deriv := by
  induction h with
  | token => exact .token
  | phrase hc _ ih => exact .phrase (hk _ _ hc) ih
  | empty hp _ ih => exact .empty hp ih
  | skipped => exact .skipped

theorem expanded_emptyDerivation (hg : g.Tabulated) (memo : Memo) (hn : g.isNullable name)
    (pos : Nat) : Expanded g memo (g.emptyDerivation name pos) := by
  refine emptyDerivation_induction (motive := fun _ => Expanded g memo) hg pos ?_ hn
  rintro alt - parts hc rfl hs
  refine .empty hc fun part hp => ?_
  obtain ⟨symbol, hsy, rfl⟩ := mem_map.1 hp
  obtain ⟨name, rfl, he⟩ := hs symbol hsy
  exact he

/-! ## Selected derivations -/

/-- A selected derivation that covers a range and spells symbols. -/
structure Selects (grammar : Grammar) (kinds : Array String) (gaps : List Chart.Gap) (memo : Memo) (start stop : Nat)
    (symbols : List FlatSymbol) (choice : Choice) : Prop where
  fits : Derivation.Fits kinds start stop symbols choice.parts.reverse
  valid : ∀ part ∈ choice.parts, part.Valid grammar kinds gaps
  expanded : ∀ part ∈ choice.parts, Expanded grammar memo part
  skips : choice.skips = Derivation.skipsOfAll choice.parts.reverse

def Spells (grammar : Grammar) (symbols : List FlatSymbol) : Spot → Prop
  | .item _ item => ∃ alternative, grammar.alternatives[item.alternative]? = some alternative ∧
      symbols = alternative.symbols.take item.dot
  | .phrase name _ _ => ∃ alternative ∈ grammar.alternatives.toList, alternative.lhs = name ∧
      symbols = alternative.symbols

/-- All selected derivations fit their spots. -/
def Correct (grammar : Grammar) (kinds : Array String) (gaps : List Chart.Gap) (memo : Memo) : Prop :=
  ∀ spot choice, choice? memo spot = some choice →
    ∃ symbols, Spells grammar symbols spot ∧ Selects grammar kinds gaps memo spot.start spot.stop symbols choice

theorem Selects.mono (h : Selects g kinds gaps memo start stop symbols choice)
    (hk : Keeps memo after) : Selects g kinds gaps after start stop symbols choice :=
  { h with expanded := fun part hp => (h.expanded part hp).mono hk }

private theorem selects_nil (memo : Memo) (pos : Nat) :
    Selects g kinds gaps memo pos pos [] { skips := 0, parts := [] } where
  fits := Derivation.fits_nil kinds pos
  valid _ hp := absurd hp not_mem_nil
  expanded _ hp := absurd hp not_mem_nil
  skips := rfl

theorem Selects.snoc {start skips : Nat} (part : Derivation)
    (h : Selects g kinds gaps memo start part.start symbols choice) (hv : part.Valid g kinds gaps)
    (he : Expanded g memo part) (hs : skips = choice.skips + part.skips) :
    Selects g kinds gaps memo start part.stop (symbols ++ (part.symbol? kinds).toList)
      { skips, parts := part :: choice.parts } where
  fits := by
    rw [reverse_cons]
    exact h.fits.snoc
  valid other ho := by
    rcases mem_cons.1 ho with rfl | ho
    · exact hv
    · exact h.valid other ho
  expanded other ho := by
    rcases mem_cons.1 ho with rfl | ho
    · exact he
    · exact h.expanded other ho
  skips := by
    rw [hs, h.skips, reverse_cons, Derivation.skipsOfAll_append]
    rfl

theorem Spells.advance {pos : Nat} {item : Item} {symbol : FlatSymbol}
    (h : Spells g symbols (.item start item)) (hn : g.next? item = some symbol) :
    Spells g (symbols ++ [symbol]) (.item pos item.advance) := by
  obtain ⟨alt, ha, rfl⟩ := h
  obtain ⟨same, hs, hsy⟩ := next?_eq_some_iff.1 hn
  rw [ha] at hs
  cases hs
  refine ⟨alt, ha, ?_⟩
  rw [Item.advance, take_add_one, hsy]
  rfl

theorem selects_throughLink (hm : Correct g kinds gaps memo) (h : Sane g kinds chart.column gaps)
    (hg : g.Tabulated) {pos : Nat} {item : Item} {link : Link}
    (hl : link ∈ (chart.column pos).linksOf item)
    (hc : throughLink g memo pos item link = some choice) :
    ∃ symbols, Spells g symbols (.item pos item) ∧
      Selects g kinds gaps memo item.origin pos symbols choice := by
  cases h.reached hl with
  | @token start item hi hlt hn =>
    obtain ⟨before, hb, heq⟩ := Option.bind_eq_some_iff.1 hc
    cases heq
    obtain ⟨symbols, hs, hsl⟩ := hm _ _ hb
    exact ⟨_, hs.advance hn, hsl.snoc (.token start) (.token hlt) .token rfl⟩
  | @phrase _ item whole hi hw hlt _ hn =>
    obtain ⟨before, hb, hr⟩ := Option.bind_eq_some_iff.1 hc
    obtain ⟨phrase, hp, heq⟩ := Option.bind_eq_some_iff.1 hr
    cases heq
    obtain ⟨symbols, hs, hsl⟩ := hm _ _ hb
    obtain ⟨inner, ⟨alt, hmm, hlh, rfl⟩, hinn⟩ := hm _ _ hp
    refine ⟨_, hs.advance hn, hsl.snoc (.phrase (g.lhsOf whole) whole.origin pos phrase.parts.reverse) ?_
      (.phrase hp hinn.expanded) (by rw [hinn.skips]; rfl)⟩
    rw [← hlh]
    exact .phrase hmm hlt hinn.fits fun part hpr => hinn.valid part (mem_reverse.1 hpr)
  | @empty _ item name hi hn hnl =>
    obtain ⟨before, hb, heq⟩ := Option.bind_eq_some_iff.1 hc
    cases heq
    obtain ⟨symbols, hs, hsl⟩ := hm _ _ hb
    obtain ⟨parts, -, hpa⟩ := exists_emptyDerivation_eq hg hnl pos
    have hv := valid_emptyDerivation hg kinds gaps hnl pos
    -- it is valid without gaps too, so nothing was skipped in it
    have hsk := (valid_emptyDerivation hg kinds [] hnl pos).skips_eq_zero
    have he := expanded_emptyDerivation hg memo hnl pos
    rw [hpa] at hv hsk he ⊢
    exact ⟨_, hs.advance hn, hsl.snoc (.empty name pos parts) hv he (by rw [hsk]; rfl)⟩
  | @skip start _ _ hi _ hgp hlt =>
    obtain ⟨before, hb, heq⟩ := Option.bind_eq_some_iff.1 hc
    cases heq
    obtain ⟨symbols, hs, hsl⟩ := hm _ _ hb
    have hsn := hsl.snoc (.skipped start pos) (.skipped hgp hlt) .skipped rfl
    rw [Derivation.symbol?, Option.toList_none, append_nil] at hsn
    exact ⟨symbols, hs, hsn⟩

private theorem exists_mem_of_preferred? {assoc : Assoc} {options : List (Choice × Nat)}
    (h : preferred? assoc options = some choice) : ∃ split, (choice, split) ∈ options := by
  cases options with
  | nil => cases h
  | cons first rest =>
    obtain ⟨best, hb, heq⟩ := preferred?_cons assoc first rest
    rw [heq, Option.some.injEq] at h
    exact ⟨best.2, h ▸ hb⟩

/-- An item is selected as the beginning of an alternative, or through one of its links. -/
theorem start_or_throughLink {pos : Nat} {item : Item} (hc : chooseItem g chart memo pos item = some choice) :
    (linksOf chart pos item = [] ∧ item.dot = 0 ∧ choice = { skips := 0, parts := [] }) ∨
      ∃ link ∈ linksOf chart pos item, throughLink g memo pos item link = some choice := by
  rw [chooseItem] at hc
  split at hc
  next hl =>
    split at hc
    next hd =>
      cases hc
      exact .inl ⟨List.isEmpty_iff.1 hl, by simpa using hd, rfl⟩
    next => cases hc
  · obtain ⟨split, hmm⟩ := exists_mem_of_preferred? hc
    obtain ⟨link, hln, hmp⟩ := mem_filterMap.1 hmm
    obtain ⟨found, hf, heq⟩ := Option.map_eq_some_iff.1 hmp
    cases heq
    exact .inr ⟨link, hln, hf⟩

theorem chooseItem_cases (h : Sane g kinds chart.column gaps) {pos : Nat} {item : Item}
    (hi : item ∈ (chart.column pos).items) (hc : chooseItem g chart memo pos item = some choice) :
    (item.dot = 0 ∧ item.origin = pos ∧ choice = { skips := 0, parts := [] }) ∨
      ∃ link ∈ linksOf chart pos item, throughLink g memo pos item link = some choice := by
  refine (start_or_throughLink hc).imp_left fun ⟨hl, hd, he⟩ => ?_
  cases h.founded hi with
  | start _ _ ho => exact ⟨hd, ho, he⟩
  | link hln =>
    rw [show (chart.column pos).linksOf item = [] from hl] at hln
    cases hln

private theorem selects_choose (hm : Correct g kinds gaps memo) (h : Sane g kinds chart.column gaps)
    (hg : g.Tabulated) (hs : Proper g chart spot)
    (hc : choose g chart memo spot = some choice) :
    ∃ symbols, Spells g symbols spot ∧ Selects g kinds gaps memo spot.start spot.stop symbols choice := by
  cases spot with
  | item pos item =>
    rcases chooseItem_cases h hs.2 hc with ⟨hd, ho, rfl⟩ | ⟨link, hl, ht⟩
    · obtain ⟨alt, ha, -⟩ := (h.sound pos).fits item hs.2
      refine ⟨[], ⟨alt, ha, by rw [hd, take_zero]⟩, ?_⟩
      rw [Spot.start, ho]
      exact selects_nil memo pos
    · exact selects_throughLink hm h hg hl ht
  | phrase name start stop =>
    obtain ⟨item, hi, hf⟩ := exists_of_findSome?_eq_some hc
    obtain ⟨alt, hmm, hlh, rfl, -⟩ := (mem_completeItems_iff h).1 hi
    obtain ⟨symbols, ⟨same, hsa, rfl⟩, hsl⟩ := hm _ _ hf
    rw [hg.getElem?_id hmm] at hsa
    cases hsa
    rw [take_length] at hsl
    exact ⟨alt.symbols, ⟨alt, hmm, hlh, rfl⟩, hsl⟩

theorem keeps_insert {found : Verdict} (hs : choice? memo spot = none) : Keeps memo (memo.insert spot found) := by
  intro other choice hc
  have hne : other ≠ spot := by
    rintro rfl
    rw [hs] at hc
    cases hc
  rwa [choice?, getElem?_insert_of_ne hne]

theorem choice?_eq_none (h : ¬ memo.contains spot) : choice? memo spot = none := by
  rw [Std.HashMap.contains_eq_isSome_getElem?, Option.not_isSome_iff_eq_none] at h
  rw [choice?, h]

/-- A spot stays unsettled while those on which it depends are settled. -/
theorem unsettled_of_trail {spots : List Spot}
    (ht : Trail (Settles g chart) spots (memo.insert spot .unsettled) after) : after[spot]? = some .unsettled := by
  rw [ht.extends Settles.extends spot Std.HashMap.contains_insert_self, Std.HashMap.getElem?_insert_self]

section Choices

def Everywhere (motive : Memo → Spot → Choice → Prop) (memo : Memo) : Prop :=
  ∀ spot choice, choice? memo spot = some choice → motive memo spot choice

variable {motive : Memo → Spot → Choice → Prop} 
  (mono : ∀ memo after spot choice, Keeps memo after → motive memo spot choice → motive after spot choice)

include mono

private theorem choices_insert (found : Verdict) (hs : choice? memo spot = none)
    (hm : Everywhere motive memo) (hf : ∀ choice, found = .chosen choice → motive memo spot choice) :
    Everywhere motive (memo.insert spot found) := by
  intro other choice hc
  refine mono _ _ _ _ (keeps_insert hs) ?_
  by_cases hne : other = spot
  · refine hne ▸ hf choice ?_
    rw [hne, choice?, Std.HashMap.getElem?_insert_self] at hc
    cases found <;> simp_all
  · rw [choice?, getElem?_insert_of_ne hne] at hc
    exact hm other choice hc

/-- What passes from the derivations already selected to the next one holds of all that are selected. -/
theorem Settles.choices (hs : Settles g chart spot memo after) (h : Sane g kinds chart.column gaps) (hg : g.Tabulated)
    (step : ∀ {memo spot choice}, Proper g chart spot → Everywhere motive memo →
      choose g chart memo spot = some choice → motive memo spot choice)
    (hsp : Proper g chart spot) (hm : Everywhere motive memo) : Everywhere motive after := by
  revert hsp hm
  refine Settles.induction (motive := fun spot memo after => Proper g chart spot → Everywhere motive memo →
    Everywhere motive after) (fun _ _ => id) ?_ hs
  intro spot memo after hnw ht hsp hm
  have ho := choices_insert mono .unsettled (choice?_eq_none hnw) hm fun _ hf => by cases hf
  have ha := ht.invariant (Everywhere motive) (fun hnx hst => hst.2 (proper_of_mem_dependencies h hg hnx).1) ho
  have hop : choice? after spot = none := by rw [choice?, unsettled_of_trail (ht.imp And.left)]
  refine choices_insert mono _ hop ha fun choice hv => step hsp ha ?_
  rw [verdict] at hv
  split at hv <;> simp_all

end Choices

theorem correct_solve (h : Sane g kinds chart.column gaps) (hg : g.Tabulated)
    (hp : Founded g chart.column (.phrase name start stop)) (hlt : start < stop) :
    Correct g kinds gaps (solve g chart name start stop) :=
  (settles_solve h name start stop).choices (fun _ _ _ _ hk ⟨symbols, hsp, hsl⟩ => ⟨symbols, hsp, hsl.mono hk⟩) h hg
    (fun hs hm => selects_choose hm h hg hs) ⟨hp, hlt⟩ fun spot choice hs => by simp [choice?] at hs

theorem selects_solve (h : Sane g kinds chart.column gaps) (hg : g.Tabulated)
    (hp : Founded g chart.column (.phrase name start stop)) (hlt : start < stop) :
    ∃ choice, choice? (solve g chart name start stop) (.phrase name start stop) = some choice ∧
      ∃ alt ∈ g.alternatives.toList, alt.lhs = name ∧
        Selects g kinds gaps (solve g chart name start stop) start stop alt.symbols choice := by
  obtain ⟨choice, hc⟩ := Option.isSome_iff_exists.1 (isSome_choice?_solve h hg hp hlt)
  obtain ⟨symbols, ⟨alt, hm, hl, rfl⟩, hs⟩ := correct_solve h hg hp hlt _ _ hc
  exact ⟨choice, hc, alt, hm, hl, hs⟩

end Forest

end TreeLint
