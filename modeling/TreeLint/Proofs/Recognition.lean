import TreeLint.Proofs.ChartReading

/-!
# Recognition

A chart without gaps recognizes exactly what the grammar derives.

* Completeness: an item advances over every word that its next symbols derive (`Faithful.advance`), and on the way some
  item waits for each token of the word (`Faithful.awaits`). So a sentence is read without gaps to its end.
* Soundness: in a chart without gaps, the recognized part of an item derives the tokens from its origin to its position
  (`Founded.derives`).
-/

namespace TreeLint

open List Grammar

namespace Chart

open Forest (Spot linkSpots)

variable {g : Grammar} {kinds : Array String} {chart : Chart} {position : Nat} {item : Item}
  {symbols : List FlatSymbol} {symbol : FlatSymbol}

def Item.Expects (grammar : Grammar) (item : Item) (symbols : List FlatSymbol) : Prop :=
  ∃ alternative rest, grammar.alternatives[item.alternative]? = some alternative ∧
    alternative.symbols.drop item.dot = symbols ++ rest

theorem Item.Expects.next? (h : item.Expects g (symbol :: symbols)) : g.next? item = some symbol := by
  obtain ⟨alt, rest, ha, hs⟩ := h
  refine next?_eq_some_iff.2 ⟨alt, ha, ?_⟩
  rw [← head?_drop, hs, cons_append, head?_cons]

theorem Item.Expects.advance (h : item.Expects g (symbol :: symbols)) : item.advance.Expects g symbols := by
  obtain ⟨alt, rest, ha, hs⟩ := h
  refine ⟨alt, rest, ha, ?_⟩
  rw [Item.advance, ← drop_drop, hs, cons_append, drop_one, tail_cons]

theorem Item.Expects.take {more : List FlatSymbol} (symbols : List FlatSymbol)
    (h : item.Expects g (symbols ++ more)) : item.Expects g symbols := by
  obtain ⟨alt, rest, ha, hs⟩ := h
  exact ⟨alt, more ++ rest, ha, by rw [hs, append_assoc]⟩

theorem Item.expects_start (hg : g.Tabulated) {alt : FlatAlternative}
    (hm : alt ∈ g.alternatives.toList) (position : Nat) :
    (⟨alt.id, 0, position⟩ : Item).Expects g alt.symbols :=
  ⟨alt, [], hg.getElem?_id hm, by simp⟩

/-! ## Completeness -/

/-- If a word lies ahead, its first kind is that of the next token, and the others lie behind it. -/
theorem ahead_cons {kind : String} {word : List String} (h : kind :: word <+: kinds.toList.drop position) :
    kinds[position]? = some kind ∧ word <+: kinds.toList.drop (position + 1) := by
  obtain ⟨rest, hr⟩ := h
  constructor
  · rw [← Array.getElem?_toList, ← head?_drop, ← hr, cons_append, head?_cons]
  · exact ⟨rest, by rw [← drop_drop, ← hr, cons_append, drop_one, tail_cons]⟩

theorem ahead_append {first word : List String} (h : first ++ word <+: kinds.toList.drop position) :
    first <+: kinds.toList.drop position ∧ word <+: kinds.toList.drop (position + first.length) := by
  obtain ⟨rest, hr⟩ := h
  rw [append_assoc] at hr
  exact ⟨⟨_, hr⟩, ⟨rest, by rw [← drop_drop, ← hr, drop_left]⟩⟩

namespace Faithful

variable (h : Faithful g kinds chart)

include h

theorem predict {alt : FlatAlternative} (hi : item ∈ (chart.column position).items)
    (hm : alt ∈ g.alternatives.toList)
    (hn : g.next? item = some (.nonterminal alt.lhs)) :
    (⟨alt.id, 0, position⟩ : Item) ∈ (chart.column position).items := by
  refine (h.closed position item hi (⟨alt.id, 0, position⟩, none) ?_).1
  refine mem_consequences_iff.2 (.inr ⟨_, hn, .inl ⟨alt, ?_, rfl⟩⟩)
  exact mem_alternativesOf_iff.2 ⟨hm, rfl⟩

private theorem advance_nullable {name : String} (hi : item ∈ (chart.column position).items)
    (hn : g.next? item = some (.nonterminal name)) (hnl : g.isNullable name) :
    item.advance ∈ (chart.column position).items :=
  (h.closed position item hi (item.advance, some (.empty name))
    (mem_consequences_iff.2 (.inr ⟨name, hn, .inr ⟨hnl, rfl⟩⟩))).1

private theorem advance_phrase {whole : Item} (hi : item ∈ (chart.column whole.origin).items)
    (hw : whole ∈ (chart.column position).items) (hne : whole.origin ≠ position)
    (hd : g.next? whole = none) (hn : g.next? item = some (.nonterminal (g.lhsOf whole))) :
    item.advance ∈ (chart.column position).items := by
  refine (h.closed position whole hw (item.advance, some (.phrase whole.origin (g.lhsOf whole))) ?_).1
  refine mem_consequences_iff.2 (.inl ⟨hd, hne, item, ?_, rfl⟩)
  exact (h.sane.sound whole.origin).coherent.mem_waiting_iff.2 ⟨hi, hn⟩

theorem advance_token {kind : String} (hi : item ∈ (chart.column position).items)
    (hn : g.next? item = some (.terminal kind)) (hk : kinds[position]? = some kind) :
    item.advance ∈ (chart.column (position + 1)).items :=
  h.scanned hi (Array.getElem?_eq_some_iff.1 hk).1 (by rw [hn, Array.getD_eq_getD_getElem?, hk, Option.getD_some])

theorem advance (hg : g.Tabulated) {word : List String}
    (hd : Derives g.alternatives.toList symbols word) (hi : item ∈ (chart.column position).items)
    (he : item.Expects g symbols) (ha : word <+: kinds.toList.drop position) :
    { item with dot := item.dot + symbols.length } ∈ (chart.column (position + word.length)).items := by
  induction hd generalizing position item with
  | nil => exact hi
  | @terminal kind symbols word _ ih =>
    obtain ⟨hk, ha⟩ := ahead_cons ha
    have := ih (h.advance_token hi he.next? hk) he.advance ha
    simpa [Item.advance, Nat.add_assoc, Nat.add_comm 1] using this
  | @nonterminal alt symbols first word hm hs _ ihsub ihrest =>
    obtain ⟨hf, ha⟩ := ahead_append ha
    have had : item.advance ∈ (chart.column (position + first.length)).items := by
      cases first with
      | nil =>
        have hn : g.isNullable alt.lhs :=
          hg.isNullable_iff.2 (generates_iff.2 ⟨alt, hm, rfl, hs⟩)
        exact h.advance_nullable hi he.next? hn
      | cons kind first =>
        have hw := ihsub (h.predict hi hm he.next?) (Item.expects_start hg hm position) hf
        have hl := hg.getElem?_id hm
        have hlh : g.lhsOf ⟨alt.id, 0 + alt.symbols.length, position⟩ = alt.lhs :=
          lhsOf_eq hl
        exact h.advance_phrase hi hw (by simp) (by simp [Grammar.next?, hl]) (by rw [hlh]; exact he.next?)
    have := ihrest had he.advance ha
    simpa [Item.advance, Nat.add_assoc, Nat.add_comm 1] using this

/-- While an item advances over a word, some item waits for each token of the word. -/
theorem awaits (hg : g.Tabulated) {word : List String}
    (hd : Derives g.alternatives.toList symbols word) (hi : item ∈ (chart.column position).items)
    (he : item.Expects g symbols) (ha : word <+: kinds.toList.drop position) {target : Nat}
    (hle : position ≤ target) (hlt : target < position + word.length) :
    ∃ waiting ∈ (chart.column target).items,
      g.next? waiting = some (.terminal (kinds.getD target "")) := by
  induction hd generalizing position item with
  | nil =>
    rw [length_nil] at hlt
    omega
  | @terminal kind symbols word hs ih =>
    obtain ⟨hk, ha⟩ := ahead_cons ha
    rw [length_cons] at hlt
    rcases Nat.eq_or_lt_of_le hle with rfl | hle
    · refine ⟨item, hi, ?_⟩
      rw [he.next?, Array.getD_eq_getD_getElem?, hk, Option.getD_some]
    · exact ih (h.advance_token hi he.next? hk) he.advance ha hle (by omega)
  | @nonterminal alt symbols first word hm hs hr ihsub ihrest =>
    obtain ⟨hf, ha⟩ := ahead_append ha
    rw [length_append] at hlt
    by_cases ht : target < position + first.length
    · exact ihsub (h.predict hi hm he.next?) (Item.expects_start hg hm position) hf hle ht
    · have ho : Derives g.alternatives.toList [.nonterminal alt.lhs] first :=
        derives_singleton_iff.2 ⟨alt, hm, rfl, hs⟩
      have had := h.advance hg ho hi (he.take [.nonterminal alt.lhs]) hf
      exact ihrest had he.advance ha (by omega) (by omega)

/-- A sentence of the start symbol is read to its end without a gap, and it is accepted there. -/
theorem accepts_of_generates (hg : g.Tabulated) (hgn : g.Generates g.start kinds.toList) :
    chart.gaps = [] ∧ chart.stopped = none ∧ chart.accepts g kinds.size := by
  obtain ⟨alt, hm, hl, hd⟩ := generates_iff.1 hgn
  have hof := mem_alternativesOf_iff.2 ⟨hm, hl⟩
  have hi := h.seeded alt hof
  have he := Item.expects_start hg hm 0
  have ha : kinds.toList <+: kinds.toList.drop 0 := prefix_refl _
  have haw : ∀ target < kinds.size, ∃ waiting ∈ (chart.column target).items,
      g.next? waiting = some (.terminal (kinds.getD target "")) := fun target ht =>
    h.awaits hg hd hi he ha (Nat.zero_le _) (by rwa [Array.length_toList, Nat.zero_add])
  refine ⟨?_, ?_, ?_⟩
  · rw [eq_nil_iff_forall_not_mem]
    intro gap hgp
    obtain ⟨hlt, hs, hb⟩ := h.gap_blocked gap hgp
    obtain ⟨waiting, hw, hn⟩ := haw gap.start (by omega)
    exact hb waiting hw hn
  · rw [Option.eq_none_iff_forall_not_mem]
    intro stop hst
    obtain ⟨hlt, hb⟩ := h.stop_blocked hst
    obtain ⟨waiting, hw, hn⟩ := haw stop hlt
    exact hb waiting hw hn
  · have hdn := h.advance hg hd hi he ha
    rw [Array.length_toList, Nat.zero_add] at hdn
    unfold accepts
    rw [any_eq_true]
    refine ⟨alt, hof, (h.sane.sound kinds.size).coherent.has_iff.2 ?_⟩
    simpa using hdn

end Faithful

/-! ## Soundness -/

def word (kinds : Array String) (start stop : Nat) : List String :=
  (kinds.toList.drop start).take (stop - start)

theorem word_self (kinds : Array String) (position : Nat) : word kinds position position = [] := by
  simp [word]

theorem word_append_word {start middle stop : Nat} (hs : start ≤ middle) (hst : middle ≤ stop) :
    word kinds start middle ++ word kinds middle stop = word kinds start stop := by
  have hd : kinds.toList.drop middle = (kinds.toList.drop start).drop (middle - start) := by
    rw [drop_drop, Nat.add_sub_cancel' hs]
  have hl : stop - start = (middle - start) + (stop - middle) := by omega
  rw [word, word, word, hd, hl, take_add]

private theorem word_succ (h : position < kinds.size) :
    word kinds position (position + 1) = [kinds.getD position ""] := by
  rw [word, Nat.add_sub_cancel_left, drop_eq_getElem_cons (by simpa using h), take_succ_cons, take_zero,
    Array.getElem_toList, Array.getD_eq_getD_getElem?, Array.getElem?_eq_getElem h, Option.getD_some]

/-- A spot stands for what the tokens over it are derived from. -/
def Recognizes (grammar : Grammar) (kinds : Array String) : Spot → Prop
  | .item position item => ∃ alternative, grammar.alternatives[item.alternative]? = some alternative ∧
      Derives grammar.alternatives.toList (alternative.symbols.take item.dot) (word kinds item.origin position)
  | .phrase name start stop => grammar.Generates name (word kinds start stop)

theorem Recognizes.advance {start : Nat} (h : Recognizes g kinds (.item start item))
    (hn : g.next? item = some symbol) (ho : item.origin ≤ start) (hle : start ≤ position)
    (hs : Derives g.alternatives.toList [symbol] (word kinds start position)) :
    Recognizes g kinds (.item position item.advance) := by
  obtain ⟨alt, ha, hd⟩ := h
  obtain ⟨found, hf, hg⟩ := next?_eq_some_iff.1 hn
  rw [ha] at hf
  cases hf
  refine ⟨alt, ha, ?_⟩
  rw [Item.advance, take_add_one, hg, ← word_append_word ho hle]
  exact hd.append hs

/-- In a chart without gaps, what is founded recognizes the tokens over it. -/
theorem Founded.derives {columns : Nat → Column} {spot : Spot} (hs : Founded g columns spot)
    (h : Sane g kinds columns []) (hg : g.Tabulated) : Recognizes g kinds spot := by
  have ho : ∀ {position item}, item ∈ (columns position).items → item.origin ≤ position := fun hi =>
    ((h.sound _).fits _ hi).choose_spec.2.2
  induction hs with
  | @start position item hi hdt hst =>
    obtain ⟨alt, ha, -, -⟩ := (h.sound position).fits item hi
    refine ⟨alt, ha, ?_⟩
    rw [hdt, hst, take_zero, word_self]
    exact .nil
  | @link position item link hl _ ih =>
    cases h.reached hl with
    | @token start before hb hlt hn =>
      have hon : Derives g.alternatives.toList [.terminal (kinds.getD start "")] [kinds.getD start ""] :=
        .terminal .nil
      rw [← word_succ hlt] at hon
      exact (ih (.item start before) (by simp [linkSpots, Item.retreat_advance])).advance hn (ho hb)
        (Nat.le_succ _) hon
    | @phrase _ before whole hb hw hlt hd hn =>
      exact (ih (.item whole.origin before) (by simp [linkSpots, Item.retreat_advance])).advance hn
        (ho hb) (Nat.le_of_lt hlt) (ih (.phrase _ whole.origin position) (by simp [linkSpots]))
    | @empty _ before name hb hn hnl =>
      refine (ih (.item position before) (by simp [linkSpots, Item.retreat_advance])).advance hn (ho hb)
        (Nat.le_refl _) ?_
      rw [word_self]
      exact hg.isNullable_iff.1 hnl
    | skip _ _ hgp => cases hgp
  | @phrase start stop alt hm hi _ ih =>
    obtain ⟨found, hf, hdr⟩ := ih
    rw [hg.getElem?_id hm] at hf
    cases hf
    rw [take_length] at hdr
    exact generates_iff.2 ⟨alt, hm, rfl, hdr⟩

/-- Where the start symbol is accepted, it has a finite derivation. -/
theorem Faithful.founded_of_accepts (h : Faithful g kinds chart) (ha : chart.accepts g position) :
    Founded g chart.column (.phrase g.start 0 position) := by
  obtain ⟨alt, hof, hh⟩ := any_eq_true.1 ha
  obtain ⟨hm, hl⟩ := mem_alternativesOf_iff.1 hof
  have hi := (h.sane.sound position).coherent.has_iff.1 hh
  rw [← hl]
  exact .phrase hm hi (h.sane.founded hi)

/-- In a chart without gaps, the start symbol derives the tokens before a position where it is accepted. -/
theorem Faithful.generates_of_accepts (h : Faithful g kinds chart) (hg : g.Tabulated)
    (hgp : chart.gaps = []) (ha : chart.accepts g position) :
    g.Generates g.start (word kinds 0 position) := by
  have hs := h.sane
  rw [hgp] at hs
  exact (h.founded_of_accepts ha).derives hs hg

theorem accepts_of_lastAccepted? {limit stop : Nat} (h : chart.lastAccepted? g limit = some stop) :
    chart.accepts g stop ∧ stop ≤ limit := by
  induction limit with
  | zero =>
    rw [lastAccepted?] at h
    split at h
    · cases h
      exact ⟨‹_›, Nat.le_refl _⟩
    · cases h
  | succ limit ih =>
    rw [lastAccepted?] at h
    split at h
    · cases h
      exact ⟨‹_›, Nat.le_refl _⟩
    · exact ⟨(ih h).1, Nat.le_succ_of_le (ih h).2⟩

end Chart

end TreeLint
