import TreeLint.Chart.Build
import TreeLint.Forest.Derivation
import TreeLint.Proofs.CheckedGrammar

/-!
# Derivations that fit a grammar

* `Derivation.Fits`: the parts of a derivation follow each other without gap or overlap, and without what was skipped
  they spell an alternative;
* `Derivation.Valid`: this holds of the derivation and of everything in it. What a valid derivation covers, without what
  was skipped, is derived by its symbol (`Valid.derives`);
* `Grammar.valid_emptyDerivation`: derivations of nothing are valid.
-/

namespace TreeLint

open List

namespace Derivation

/-! ## Ranges and symbols -/

def start : Derivation → Nat
  | .token position => position
  | .phrase _ start _ _ => start
  | .empty _ position _ => position
  | .skipped start _ => start

def stop : Derivation → Nat
  | .token position => position + 1
  | .phrase _ _ stop _ => stop
  | .empty _ position _ => position
  | .skipped _ stop => stop

/-- The symbol that a derivation stands for; skipped tokens stand for none. -/
def symbol? (kinds : Array String) : Derivation → Option Grammar.FlatSymbol
  | .token position => some (.terminal (kinds.getD position ""))
  | .phrase name _ _ _ => some (.nonterminal name)
  | .empty name _ _ => some (.nonterminal name)
  | .skipped _ _ => none

mutual

def skips : Derivation → Nat
  | .token _ => 0
  | .phrase _ _ _ parts => skipsOfAll parts
  | .empty _ _ parts => skipsOfAll parts
  | .skipped _ _ => 1

def skipsOfAll : List Derivation → Nat
  | [] => 0
  | part :: parts => skips part + skipsOfAll parts

end

mutual

/-- The positions of the tokens in a derivation, without what was skipped. -/
def positions : Derivation → List Nat
  | .token position => [position]
  | .phrase _ _ _ parts => positionsOfAll parts
  | .empty _ _ parts => positionsOfAll parts
  | .skipped _ _ => []

/-- The positions of the tokens in a list of derivations, without what was skipped. -/
def positionsOfAll : List Derivation → List Nat
  | [] => []
  | part :: parts => positions part ++ positionsOfAll parts

end

theorem skipsOfAll_append (parts more : List Derivation) :
    skipsOfAll (parts ++ more) = skipsOfAll parts + skipsOfAll more := by
  induction parts with
  | nil => simp [skipsOfAll]
  | cons part parts ih => simp only [cons_append, skipsOfAll, ih, Nat.add_assoc]

/-! ## Parts in a row -/

/-- Derivations that follow each other from one position to another. -/
inductive Adjacent : Nat → Nat → List Derivation → Prop
  | nil {position : Nat} : Adjacent position position []
  | cons (part : Derivation) {parts : List Derivation} {stop : Nat} : Adjacent part.stop stop parts →
      Adjacent part.start stop (part :: parts)

theorem Adjacent.snoc {first : Nat} {parts : List Derivation} {part : Derivation}
    (h : Adjacent first part.start parts) : Adjacent first part.stop (parts ++ [part]) := by
  generalize hl : part.start = last at h
  induction h with
  | nil => exact hl ▸ .cons part .nil
  | cons first _ ih => exact .cons first (ih hl)

/-- Derivations that follow each other and, without what was skipped, spell a list of symbols. -/
structure Fits (kinds : Array String) (first last : Nat) (symbols : List Grammar.FlatSymbol)
    (parts : List Derivation) : Prop where
  adjacent : Adjacent first last parts
  spells : parts.filterMap (symbol? kinds) = symbols

theorem fits_nil (kinds : Array String) (position : Nat) : Fits kinds position position [] [] :=
  ⟨.nil, rfl⟩

theorem Fits.snoc {kinds : Array String} {first : Nat} {symbols : List Grammar.FlatSymbol} {parts : List Derivation}
    {part : Derivation} (h : Fits kinds first part.start symbols parts) :
    Fits kinds first part.stop (symbols ++ (part.symbol? kinds).toList) (parts ++ [part]) where
  adjacent := h.adjacent.snoc
  spells := by
    rw [filterMap_append, h.spells]
    cases hp : part.symbol? kinds <;> simp [hp]

/-! ## Valid derivations -/

/-- A derivation by the alternatives of a grammar over tokens of some kinds, where the gaps may be skipped. -/
inductive Valid (grammar : Grammar) (kinds : Array String) (gaps : List Chart.Gap) : Derivation → Prop
  | token {position : Nat} : position < kinds.size → Valid grammar kinds gaps (.token position)
  | phrase {alternative : Grammar.FlatAlternative} {start stop : Nat} {parts : List Derivation} :
      alternative ∈ grammar.alternatives.toList → start < stop → Fits kinds start stop alternative.symbols parts →
        (∀ part ∈ parts, Valid grammar kinds gaps part) →
          Valid grammar kinds gaps (.phrase alternative.lhs start stop parts)
  | empty {alternative : Grammar.FlatAlternative} {position : Nat} {parts : List Derivation} :
      alternative ∈ grammar.alternatives.toList → Fits kinds position position alternative.symbols parts →
        (∀ part ∈ parts, Valid grammar kinds gaps part) →
          Valid grammar kinds gaps (.empty alternative.lhs position parts)
  | skipped {start stop : Nat} : ⟨start, stop⟩ ∈ gaps → start < stop → Valid grammar kinds gaps (.skipped start stop)

variable {g : Grammar} {kinds : Array String} {gaps : List Chart.Gap} {deriv : Derivation}

theorem Valid.start_le_stop (h : deriv.Valid g kinds gaps) : deriv.start ≤ deriv.stop := by
  cases h with
  | token => exact Nat.le_succ _
  | phrase _ hlt => exact Nat.le_of_lt hlt
  | empty => exact Nat.le_refl _
  | skipped _ hlt => exact Nat.le_of_lt hlt

section Fitting

variable {first last : Nat} {symbol : Grammar.FlatSymbol} {symbols : List Grammar.FlatSymbol}
  {parts : List Derivation}

/-- Without gaps, parts that spell symbols begin with a part for the first of them. -/
theorem Fits.exists_cons (h : Fits kinds first last (symbol :: symbols) parts)
    (hv : ∀ part ∈ parts, part.Valid g kinds []) :
    ∃ part rest, parts = part :: rest ∧ part.start = first ∧ part.symbol? kinds = some symbol ∧
      Fits kinds part.stop last symbols rest := by
  obtain ⟨ha, hs⟩ := h
  cases ha with
  | nil => cases hs
  | @cons part rest _ hr =>
    have hso : ∃ found, part.symbol? kinds = some found := by
      cases hv part mem_cons_self with
      | token | phrase | empty => exact ⟨_, rfl⟩
      | skipped hgp => cases hgp
    obtain ⟨found, hfn⟩ := hso
    rw [filterMap_cons_some hfn] at hs
    cases hs
    exact ⟨part, rest, rfl, rfl, hfn, hr, rfl⟩

theorem Fits.eq_nil (h : Fits kinds first last [] parts) (hv : ∀ part ∈ parts, part.Valid g kinds []) :
    parts = [] ∧ first = last := by
  obtain ⟨ha, hs⟩ := h
  cases ha with
  | nil => exact ⟨rfl, rfl⟩
  | @cons part rest _ hr =>
    cases hv part mem_cons_self with
    | token | phrase | empty => cases hs
    | skipped hgp => cases hgp

/-- Without gaps, parts that spell terminals are tokens. -/
theorem Fits.exists_token {row : List String} (h : Fits kinds first last (row.map .terminal) parts)
    (hv : ∀ part ∈ parts, part.Valid g kinds []) {part : Derivation} (hp : part ∈ parts) : ∃ pos, part = .token pos := by
  have hn (name : String) (hs : part.symbol? kinds = some (.nonterminal name)) : False := by
    have hm := mem_filterMap.2 ⟨part, hp, hs⟩
    rw [h.spells] at hm
    simp at hm
  cases hv part hp with
  | token => exact ⟨_, rfl⟩
  | phrase | empty => exact (hn _ rfl).elim
  | skipped hg => cases hg

end Fitting

private theorem derives_positionsOfAll {parts : List Derivation}
    (h : ∀ part ∈ parts, Grammar.Derives g.alternatives.toList (part.symbol? kinds).toList
      (part.positions.map (kinds.getD · ""))) :
    Grammar.Derives g.alternatives.toList (parts.filterMap (symbol? kinds))
      ((positionsOfAll parts).map (kinds.getD · "")) := by
  induction parts with
  | nil => exact .nil
  | cons part parts ih =>
    have hf := h part mem_cons_self
    have hr := ih (forall_mem_cons.1 h).2
    have hc : (part :: parts).filterMap (symbol? kinds) =
        (part.symbol? kinds).toList ++ parts.filterMap (symbol? kinds) := by
      cases hp : part.symbol? kinds <;> simp [hp]
    rw [hc, positionsOfAll, map_append]
    exact hf.append hr

/-- The tokens of a valid derivation, without what was skipped, are derived by its symbol. -/
theorem Valid.derives (h : deriv.Valid g kinds gaps) :
    Grammar.Derives g.alternatives.toList (deriv.symbol? kinds).toList
      (deriv.positions.map (kinds.getD · "")) := by
  induction h with
  | token => exact .terminal .nil
  | phrase hm _ hf _ ih | empty hm hf _ ih =>
    have hp := derives_positionsOfAll ih
    rw [hf.spells] at hp
    exact Grammar.derives_singleton_iff.2 ⟨_, hm, rfl, hp⟩
  | skipped => exact .nil

theorem skipsOfAll_eq_zero {parts : List Derivation} (h : ∀ part ∈ parts, part.skips = 0) : skipsOfAll parts = 0 := by
  induction parts with
  | nil => rfl
  | cons part parts ih =>
    rw [skipsOfAll, h part mem_cons_self, ih (forall_mem_cons.1 h).2]

/-- Without gaps, nothing is skipped. -/
theorem Valid.skips_eq_zero (h : deriv.Valid g kinds []) : deriv.skips = 0 := by
  induction h with
  | token => rfl
  | phrase _ _ _ _ ih | empty _ _ _ ih => exact skipsOfAll_eq_zero ih
  | skipped hg => cases hg

end Derivation

/-! ## Derivations of nothing -/

namespace Grammar

variable {alts : Array FlatAlternative} {table : NullTable} {position : Nat} {name : String}

/-- What passes from the symbols of a noted alternative to its nonterminal holds of all nullable nonterminals. -/
private theorem NullTable.Grounded.lookup_induction {motive : String → Prop} (h : table.Grounded alts.toList)
    (step : ∀ alt ∈ alts.toList, table.lookup alt.lhs = some alt.id →
      (∀ symbol ∈ alt.symbols, ∃ name, symbol = .nonterminal name ∧ motive name) → motive alt.lhs)
    (hn : (table.lookup name).isSome) : motive name := by
  -- the entries are dealt with in the order in which they were found
  have hp : ∀ found more, NullTable.Grounded alts.toList found → table = found ++ more →
      ∀ name, (found.lookup name).isSome → motive name := by
    intro found more hf ht
    induction hf generalizing more with
    | nil => intro name hn; simp at hn
    | @snoc found alt _ hm hnw hc ih =>
      have hold := ih ((alt.lhs, alt.id) :: more) (by rw [ht, append_assoc]; rfl)
      intro name hn
      rw [NullTable.lookup_snoc, Option.isSome_or, Bool.or_eq_true] at hn
      rcases hn with hn | hn
      · exact hold name hn
      · have hl : name = alt.lhs := by
          by_contra hne
          simp [hne] at hn
        subst hl
        refine step alt hm ?_ fun symbol hs => ?_
        · rw [ht, lookup_append, NullTable.lookup_snoc, hnw]
          simp
        · obtain ⟨name, rfl, hn⟩ := NullTable.exists_of_covers hc hs
          exact ⟨name, rfl, hold name hn⟩
  exact hp table [] h (append_nil _).symm name hn

private theorem emptyDerivationIn_snoc (key : String) (id : Nat) :
    emptyDerivationIn alts position (table ++ [(key, id)]).reverse name = if key == name then
        .empty name position ((alts.getD id default).symbols.map fun symbol =>
          emptyDerivationIn alts position table.reverse symbol.name)
      else emptyDerivationIn alts position table.reverse name := by
  rw [reverse_append]
  rfl

/-- A later entry changes nothing for symbols that the table covers. -/
private theorem map_emptyDerivationIn_snoc {key : String} {id : Nat} {symbols : List FlatSymbol}
    (hnw : table.lookup key = none) (hc : table.covers symbols) :
    (symbols.map fun symbol => emptyDerivationIn alts position (table ++ [(key, id)]).reverse symbol.name) =
      symbols.map fun symbol => emptyDerivationIn alts position table.reverse symbol.name := by
  refine map_congr_left fun symbol hs => ?_
  obtain ⟨name, rfl, hn⟩ := NullTable.exists_of_covers hc hs
  have hne : key ≠ name := by
    rintro rfl
    rw [hnw] at hn
    cases hn
  rw [FlatSymbol.name, emptyDerivationIn_snoc, if_neg (by simpa using hne)]

/-- The derivation of nothing from a nonterminal has those of the symbols of its noted alternative as parts. -/
private theorem NullTable.Grounded.emptyDerivationIn_eq (h : table.Grounded alts.toList)
    (hi : ∀ other ∈ alts.toList, alts[other.id]? = some other) {alt : FlatAlternative}
    (hm : alt ∈ alts.toList) (hl : table.lookup alt.lhs = some alt.id) :
    table.covers alt.symbols ∧ emptyDerivationIn alts position table.reverse alt.lhs =
      .empty alt.lhs position (alt.symbols.map fun symbol =>
        emptyDerivationIn alts position table.reverse symbol.name) := by
  induction h with
  | nil => cases hl
  | @snoc table latest _ hla hn hc ih =>
    rw [NullTable.lookup_snoc] at hl
    cases hold : table.lookup alt.lhs with
    | some id =>
      rw [hold, Option.some_or] at hl
      obtain ⟨hb, heq⟩ := ih (hold.trans hl)
      refine ⟨NullTable.covers_append _ hb, ?_⟩
      rw [map_emptyDerivationIn_snoc hn hb, emptyDerivationIn_snoc, if_neg, heq]
      intro hs
      rw [beq_iff_eq] at hs
      rw [hs, hold] at hn
      cases hn
    | none =>
      rw [hold, Option.none_or] at hl
      have hs : alt = latest := by
        have hid : latest.id = alt.id := by
          split at hl
          · exact Option.some.inj hl
          · cases hl
        have hf := hi latest hla
        rw [hid, hi alt hm] at hf
        exact Option.some.inj hf
      subst hs
      refine ⟨NullTable.covers_append _ hc, ?_⟩
      have hg : alts.getD alt.id default = alt := by
        rw [Array.getD_eq_getD_getElem?, hi alt hm, Option.getD_some]
      rw [map_emptyDerivationIn_snoc hn hc, emptyDerivationIn_snoc, if_pos (by simp), hg]

variable {g : Grammar}

private theorem Tabulated.grounded (hg : g.Tabulated) : g.nullTable.Grounded g.alternatives.toList := by
  rw [hg.nullTable_eq]
  exact NullTable.grounded_ofAlternatives _

/-- The derivation of nothing from a nullable nonterminal, with its parts. -/
theorem emptyDerivation_eq (hg : g.Tabulated) {alt : FlatAlternative}
    (hm : alt ∈ g.alternatives.toList)
    (hl : g.nullTable.lookup alt.lhs = some alt.id) (position : Nat) :
    g.emptyDerivation alt.lhs position =
        .empty alt.lhs position (alt.symbols.map (g.emptyDerivation ·.name position)) ∧
      g.emptyChildren? alt.lhs position =
        some (alt.symbols.map (g.emptyDerivation ·.name position)) := by
  have ht := hg.grounded
  refine ⟨(ht.emptyDerivationIn_eq (fun other ho => hg.getElem?_id ho) hm hl).2, ?_⟩
  rw [emptyChildren?, hl, Option.map_some, Array.getD_eq_getD_getElem?, hg.getElem?_id hm, Option.getD_some]

/-- What passes from the parts of a derivation of nothing to the whole holds of all derivations of nothing. -/
theorem emptyDerivation_induction {motive : String → Derivation → Prop} (hg : g.Tabulated) (position : Nat)
    (step : ∀ alt ∈ g.alternatives.toList, ∀ parts,
      g.emptyChildren? alt.lhs position = some parts →
        parts = alt.symbols.map (g.emptyDerivation ·.name position) →
          (∀ symbol ∈ alt.symbols, ∃ name, symbol = .nonterminal name ∧
            motive name (g.emptyDerivation name position)) →
              motive alt.lhs (.empty alt.lhs position parts))
    (hn : g.isNullable name) : motive name (g.emptyDerivation name position) := by
  have ht := hg.grounded
  refine ht.lookup_induction (motive := fun name => motive name (g.emptyDerivation name position)) ?_ hn
  intro alt hm hl hs
  obtain ⟨heq, hc⟩ := emptyDerivation_eq hg hm hl position
  rw [heq]
  exact step alt hm _ hc rfl hs

theorem exists_emptyDerivation_eq (hg : g.Tabulated) (hn : g.isNullable name) (position : Nat) :
    ∃ parts, g.emptyChildren? name position = some parts ∧
      g.emptyDerivation name position = .empty name position parts :=
  emptyDerivation_induction (motive := fun name deriv => ∃ parts,
    g.emptyChildren? name position = some parts ∧ deriv = .empty name position parts) hg position
    (fun _ _ parts hc _ _ => ⟨parts, hc, rfl⟩) hn

theorem fits_emptyDerivations {kinds : Array String} {symbols : List FlatSymbol}
    (h : ∀ symbol ∈ symbols, ∃ name parts, symbol = .nonterminal name ∧
      g.emptyDerivation name position = .empty name position parts) :
    Derivation.Fits kinds position position symbols (symbols.map (g.emptyDerivation ·.name position)) := by
  induction symbols with
  | nil => exact Derivation.fits_nil kinds position
  | cons symbol symbols ih =>
    obtain ⟨name, parts, rfl, heq⟩ := h symbol mem_cons_self
    obtain ⟨ha, hs⟩ := ih (forall_mem_cons.1 h).2
    rw [map_cons, FlatSymbol.name, heq]
    exact ⟨.cons (.empty name position parts) ha, by simp [Derivation.symbol?, hs]⟩

theorem valid_emptyDerivation (hg : g.Tabulated) (kinds : Array String) (gaps : List Chart.Gap)
    (hn : g.isNullable name) (position : Nat) :
    (g.emptyDerivation name position).Valid g kinds gaps := by
  refine (emptyDerivation_induction (motive := fun name deriv => deriv.Valid g kinds gaps ∧
    ∃ parts, deriv = .empty name position parts) hg position ?_ hn).1
  rintro alt hm parts - rfl hs
  refine ⟨.empty hm (fits_emptyDerivations fun symbol hsy => ?_) fun part hp => ?_, _, rfl⟩
  · obtain ⟨name, heq, -, parts, hpr⟩ := hs symbol hsy
    exact ⟨name, parts, heq, hpr⟩
  · obtain ⟨symbol, hsy, rfl⟩ := mem_map.1 hp
    obtain ⟨name, rfl, hv, -⟩ := hs symbol hsy
    exact hv

end Grammar

end TreeLint
