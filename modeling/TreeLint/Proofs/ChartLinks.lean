import Mathlib.Logic.Function.Basic
import TreeLint.Forest.Select
import TreeLint.Proofs.Closure

/-!
# Links of a chart

Every link in a chart leads back to items that are there, and every item can be followed back to a beginning in finitely
many links.

* `Reached`: what a link of an item at a position says about the items before it;
* `Founded`: a spot has a finite derivation through the links of the chart;
* `Sane`: the columns are in order, all links are of this kind, and all items are founded. Adding items that follow
  from those that are there keeps it so (`Sane.addAll`).

The columns are given as a function of the position, since it does not matter here how they are stored.
-/

namespace TreeLint

variable {earlier : Array Column} {column : Column}

namespace Chart

open Forest (Spot linkSpots)

/-! ## Growing columns -/

/-- One column has the items and the links of another. -/
structure Column.Grows (before after : Column) : Prop where
  items : ∀ {item : Item}, item ∈ before.items → item ∈ after.items
  links : ∀ {item : Item} {link : Link}, link ∈ before.linksOf item → link ∈ after.linksOf item

theorem Column.Grows.addAll {g : Grammar} (hc : column.Coherent g) (steps : List (Item × Option Link)) :
    column.Grows (column.addAll g steps) where
  items h := (Column.mem_items_addAll_iff hc).2 (.inl h)
  links h := Column.mem_linksOf_addAll_iff.2 (.inl h)

/-- Closing a column takes nothing away from it. -/
theorem grows_close {g : Grammar} {position : Nat} {kernel : Column} (hg : g.Tabulated)
    (he : ∀ start < position, (earlier.getD start {}).Sound g start)
    (hk : kernel.Sound g position) : kernel.Grows (close g earlier position kernel) := by
  have hc : (close g earlier position kernel).Sound g position ∧
      kernel.Grows (close g earlier position kernel) := by
    refine close_induction (motive := fun column => column.Sound g position ∧ kernel.Grows column) ?_ ⟨hk, id, id⟩
    rintro column item ⟨hs, hgr⟩ hi
    have ha := Column.Grows.addAll hs.coherent (consequences g earlier position item)
    exact ⟨hs.addAll_consequences hg he hi, fun hm => ha.items (hgr.items hm),
      fun hl => ha.links (hgr.links hl)⟩
  exact hc.2

/-- At every position the column has grown. -/
def Grows (before after : Nat → Column) : Prop :=
  ∀ position, (before position).Grows (after position)

theorem grows_update {columns : Nat → Column} {position : Nat} (h : (columns position).Grows column) :
    Grows columns (Function.update columns position column) := by
  intro other
  by_cases ho : other = position
  · subst ho
    rwa [Function.update_self]
  · rw [Function.update_of_ne ho]
    exact ⟨id, id⟩

/-! ## What links say -/

theorem Item.retreat_advance (item : Item) : item.advance.retreat = item := rfl

/-- A link of an item at a position leads back to items that are there. -/
inductive Reached (grammar : Grammar) (kinds : Array String) (columns : Nat → Column) (gaps : List Gap) :
    Nat → Item → Link → Prop
  | token {start : Nat} {item : Item} : item ∈ (columns start).items → start < kinds.size →
      grammar.next? item = some (.terminal (kinds.getD start "")) →
        Reached grammar kinds columns gaps (start + 1) item.advance (.token start)
  | phrase {position : Nat} {item whole : Item} : item ∈ (columns whole.origin).items →
      whole ∈ (columns position).items → whole.origin < position → grammar.next? whole = none →
        grammar.next? item = some (.nonterminal (grammar.lhsOf whole)) →
          Reached grammar kinds columns gaps position item.advance (.phrase whole.origin (grammar.lhsOf whole))
  | empty {position : Nat} {item : Item} {name : String} : item ∈ (columns position).items →
      grammar.next? item = some (.nonterminal name) → grammar.isNullable name →
        Reached grammar kinds columns gaps position item.advance (.empty name)
  | skip {start position : Nat} {item : Item} : item ∈ (columns start).items → isLive grammar item →
      ⟨start, position⟩ ∈ gaps → start < position → Reached grammar kinds columns gaps position item (.skip start)

/-- A spot has a finite derivation through the links of a chart. -/
inductive Founded (grammar : Grammar) (columns : Nat → Column) : Spot → Prop
  | start {position : Nat} {item : Item} : item ∈ (columns position).items → item.dot = 0 →
      item.origin = position → Founded grammar columns (.item position item)
  | link {position : Nat} {item : Item} {link : Link} : link ∈ (columns position).linksOf item →
      (∀ spot ∈ linkSpots position item link, Founded grammar columns spot) →
        Founded grammar columns (.item position item)
  | phrase {start stop : Nat} {alternative : Grammar.FlatAlternative} : alternative ∈ grammar.alternatives.toList →
        (⟨alternative.id, alternative.symbols.length, start⟩ : Item) ∈ (columns stop).items →
          Founded grammar columns (.item stop ⟨alternative.id, alternative.symbols.length, start⟩) →
            Founded grammar columns (.phrase alternative.lhs start stop)

variable {g : Grammar} {kinds : Array String} {columns : Nat → Column} {gaps : List Gap}
  {position : Nat} {item : Item} {link : Link}

theorem Reached.mono {more : Nat → Column} {others : List Gap}
    (h : Reached g kinds columns gaps position item link)
    (hg : Grows columns more) (hgp : gaps ⊆ others) : Reached g kinds more others position item link := by
  cases h with
  | token hi hlt hn => exact .token ((hg _).items hi) hlt hn
  | phrase hi hw hlt hd hn =>
    exact .phrase ((hg _).items hi) ((hg _).items hw) hlt hd hn
  | empty hi hn hnl => exact .empty ((hg _).items hi) hn hnl
  | skip hi hl hga hlt => exact .skip ((hg _).items hi) hl (hgp hga) hlt

theorem Founded.mono {more : Nat → Column} {spot : Spot} (h : Founded g columns spot)
    (hg : Grows columns more) : Founded g more spot := by
  induction h with
  | start hi hd ho => exact .start ((hg _).items hi) hd ho
  | link hl _ ih => exact .link ((hg _).links hl) ih
  | phrase hm hi _ ih => exact .phrase hm ((hg _).items hi) ih

/-! ## Charts in order -/

/-- The columns are in order, their links lead back to items, and their items are founded. -/
structure Sane (grammar : Grammar) (kinds : Array String) (columns : Nat → Column) (gaps : List Gap) : Prop where
  sound : ∀ position, (columns position).Sound grammar position
  reached : ∀ {position : Nat} {item : Item} {link : Link}, link ∈ (columns position).linksOf item →
    Reached grammar kinds columns gaps position item link
  founded : ∀ {position : Nat} {item : Item}, item ∈ (columns position).items →
    Founded grammar columns (.item position item)

/-- What can be added at a position: the beginning of an alternative, or an item with a link. -/
inductive Follows (grammar : Grammar) (kinds : Array String) (columns : Nat → Column) (gaps : List Gap)
    (position : Nat) : Item × Option Link → Prop
  | start {alternative : Grammar.FlatAlternative} : alternative ∈ grammar.alternatives.toList →
      Follows grammar kinds columns gaps position (⟨alternative.id, 0, position⟩, none)
  | link {item : Item} {link : Link} : Reached grammar kinds columns gaps position item link →
      Follows grammar kinds columns gaps position (item, some link)

theorem sane_empty (g : Grammar) (kinds : Array String) : Sane g kinds (fun _ => {}) [] where
  sound := Column.sound_empty g
  reached h := by simp [Column.linksOf] at h
  founded h := by simp at h

theorem Sane.mono_gaps {others : List Gap} (h : Sane g kinds columns gaps) (hg : gaps ⊆ others) :
    Sane g kinds columns others where
  sound := h.sound
  reached hl := (h.reached hl).mono (fun _ => ⟨id, id⟩) hg
  founded := h.founded

private theorem Reached.fitsAt (hr : Reached g kinds columns gaps position item link)
    (h : Sane g kinds columns gaps) : item.FitsAt g position := by
  cases hr with
  | token hi _ hn => exact (((h.sound _).fits _ hi).advance hn).mono (Nat.le_succ _)
  | phrase hi _ hlt _ hn => exact (((h.sound _).fits _ hi).advance hn).mono (Nat.le_of_lt hlt)
  | empty hi hn _ => exact ((h.sound _).fits _ hi).advance hn
  | skip hi _ _ hlt => exact ((h.sound _).fits _ hi).mono (Nat.le_of_lt hlt)

/-- A link that was reached rightly leads to spots that the chart holds. -/
theorem Reached.founded (hr : Reached g kinds columns gaps position item link) (hg : g.Tabulated)
    (h : Sane g kinds columns gaps) : ∀ spot ∈ linkSpots position item link, Founded g columns spot := by
  cases hr with
  | token hi | empty hi => simpa [linkSpots, Item.retreat_advance] using h.founded hi
  | @phrase _ item whole hi hw _ hd =>
    obtain ⟨alt, ha, hdt⟩ := ((h.sound _).fits whole hw).complete hd
    have hid := hg.id_eq ha
    have hs := @Founded.phrase g columns whole.origin position alt
      (Array.mem_toList_iff.2 (Array.mem_of_getElem? ha))
    rw [hid, ← hdt] at hs
    simp only [linkSpots, List.mem_cons, List.not_mem_nil, or_false, forall_eq_or_imp, forall_eq,
      Item.retreat_advance, Grammar.lhsOf_eq ha]
    exact ⟨h.founded hi, hs hw (h.founded hw)⟩
  | skip hi => simpa [linkSpots] using h.founded hi

private theorem Follows.fitsAt {step : Item × Option Link} (hs : Follows g kinds columns gaps position step)
    (hg : g.Tabulated) (h : Sane g kinds columns gaps) : step.1.FitsAt g position := by
  cases hs with
  | start hm => exact ⟨_, hg.getElem?_id hm, Nat.zero_le _, Nat.le_refl _⟩
  | link hr => exact hr.fitsAt h

/-- Adding steps that follow from a sane chart leaves it sane. -/
theorem Sane.addAll (h : Sane g kinds columns gaps) (hg : g.Tabulated) (position : Nat)
    (steps : List (Item × Option Link)) (hs : ∀ step ∈ steps, Follows g kinds columns gaps position step) :
    Sane g kinds (Function.update columns position ((columns position).addAll g steps)) gaps := by
  have hc := (h.sound position).coherent
  have hgr : Grows columns (Function.update columns position ((columns position).addAll g steps)) :=
    grows_update (.addAll hc steps)
  refine ⟨fun other => ?_, fun {other item link} hl => ?_, fun {other item} hi => ?_⟩
  · by_cases ho : other = position
    · subst ho
      rw [Function.update_self]
      exact (h.sound other).addAll fun step hst => (hs step hst).fitsAt hg h
    · rw [Function.update_of_ne ho]
      exact h.sound other
  · by_cases ho : other = position
    · subst ho
      rw [Function.update_self, Column.mem_linksOf_addAll_iff] at hl
      rcases hl with hl | hst
      · exact (h.reached hl).mono hgr (List.Subset.refl _)
      · cases hs _ hst with
        | link hr => exact hr.mono hgr (List.Subset.refl _)
    · rw [Function.update_of_ne ho] at hl
      exact (h.reached hl).mono hgr (List.Subset.refl _)
  · by_cases ho : other = position
    · subst ho
      rw [Function.update_self] at hi
      rcases (Column.mem_items_addAll_iff hc).1 hi with hold | ⟨found, hst⟩
      · exact (h.founded hold).mono hgr
      · cases hs _ hst with
        | start hm => exact .start (by rwa [Function.update_self]) rfl rfl
        | @link _ link hr =>
          have hl :
              link ∈ (Function.update columns other ((columns other).addAll g steps) other).linksOf item := by
            rw [Function.update_self]
            exact Column.mem_linksOf_addAll_iff.2 (.inr hst)
          exact .link hl fun spot hsp => (hr.founded hg h spot hsp).mono hgr
    · rw [Function.update_of_ne ho] at hi
      exact (h.founded hi).mono hgr

theorem Sane.addAll_consequences (h : Sane g kinds (Function.update columns position column) gaps)
    (hg : g.Tabulated) (he : ∀ start < position, earlier.getD start {} = columns start)
    (hi : item ∈ column.items) :
    Sane g kinds (Function.update columns position
      (column.addAll g (consequences g earlier position item))) gaps := by
  have hs : Function.update columns position column position = column := Function.update_self ..
  have had := h.addAll hg position (consequences g earlier position item) ?_
  · rwa [hs, Function.update_idem] at had
  have hf := (h.sound position).fits item (by rwa [hs])
  intro step hst
  rcases mem_consequences_iff.1 hst with ⟨hd, ho, parent, hp, rfl⟩ | ⟨name, hn, hr⟩
  · have hlt : item.origin < position := Nat.lt_of_le_of_ne hf.choose_spec.2.2 ho
    have hc := (h.sound item.origin).coherent
    rw [he _ hlt, ← Function.update_of_ne (Nat.ne_of_lt hlt) column columns] at hp
    obtain ⟨hm, hw⟩ := hc.mem_waiting_iff.1 hp
    exact .link (.phrase hm (by rwa [hs]) hlt hd hw)
  · rcases hr with ⟨alt, ha, rfl⟩ | ⟨hnl, rfl⟩
    · exact .start (Grammar.mem_alternativesOf_iff.1 ha).1
    · exact .link (.empty (by rwa [hs]) hn hnl)

/-- The chart stays sane when one of its columns is closed. -/
theorem Sane.close {kernel : Column} (h : Sane g kinds (Function.update columns position kernel) gaps)
    (hg : g.Tabulated) (he : ∀ start < position, earlier.getD start {} = columns start) :
    Sane g kinds (Function.update columns position (Chart.close g earlier position kernel)) gaps :=
  close_induction (motive := fun column => Sane g kinds (Function.update columns position column) gaps)
    (fun _ _ hc hi => hc.addAll_consequences hg he hi) h

end Chart

end TreeLint
