import TreeLint.Proofs.Lowering
import TreeLint.Proofs.Preferences

/-!
# The order in which nullable nonterminals are found

The sweeps over the alternatives note for a nonterminal the first alternative that they meet all of whose symbols have
been found before. The alternatives are met in the order of declaration, but between two alternatives of a production
stand those of the groups of the second; as the first one does not use these groups, it cannot become nullable in
between.

* `Undisturbed`: between two rules of a nonterminal stand no rules for something that the former one uses;
* `Built.undisturbed`: this holds of the rules of a checked grammar;
* `NullTable.Noted`: every entry names the earliest alternative that rests on the entries before it;
* `Built.exists_noted`: this holds of the table of a checked grammar;
* `Unfolds`: one nonterminal in a sequence gives way to the symbols of the alternative that is noted for it;
* `nullable_exact`: the table has the nonterminals that derive nothing, and unfolding comes to an end.
-/

namespace TreeLint

open List

variable {name : String} {id : Nat}

namespace Grammar

/-! ## Rules between rules of one nonterminal -/

/-- Between two rules of a nonterminal stand no rules for other nonterminals that the former one uses. -/
def Undisturbed (rules : List FlatRule) : Prop :=
  ∀ former between later, [former, between, later].Sublist rules → former.lhs = later.lhs → between.lhs ≠ former.lhs →
    .nonterminal between.lhs ∉ former.symbols

private theorem undisturbed_nil : Undisturbed [] :=
  fun _ _ _ hs => absurd hs.length_le (by simp)

private theorem undisturbed_of_lhs_eq {rules : List FlatRule} (h : ∀ rule ∈ rules, rule.lhs = name) :
    Undisturbed rules := by
  intro former between later hs _ hne
  have hf := h former (hs.subset (by simp))
  have hb := h between (hs.subset (by simp))
  exact absurd (hb.trans hf.symm) hne

theorem Undisturbed.append {first second : List FlatRule} (hf : Undisturbed first) (hs : Undisturbed second)
    (ha : ∀ rule ∈ first, ∀ other ∈ second, rule.lhs ≠ other.lhs) : Undisturbed (first ++ second) := by
  intro former between later hsb hlh hne
  obtain ⟨inFirst, inSecond, hsp, hinFirst, hinSecond⟩ := sublist_append_iff.1 hsb
  cases inFirst with
  | nil => exact hs former between later (by rwa [hsp, nil_append]) hlh hne
  | cons rule inFirst =>
    rw [cons_append, List.cons.injEq] at hsp
    obtain ⟨rfl, hsp⟩ := hsp
    cases inSecond with
    | nil =>
      rw [append_nil] at hsp
      exact hf former between later (by rwa [hsp]) hlh hne
    | cons other inSecond =>
      -- the last of the three is on the other side
      have hl : later ∈ other :: inSecond := by
        have hls := congrArg List.getLast? hsp
        rw [getLast?_append_of_ne_nil _ (cons_ne_nil other inSecond)] at hls
        exact mem_of_getLast? hls.symm
      exact absurd hlh (ha former (hinFirst.subset mem_cons_self) later (hinSecond.subset hl))

theorem Undisturbed.cons {rule : FlatRule} {rules : List FlatRule} (h : Undisturbed rules)
    (ho : ∀ other ∈ rules, other.lhs ≠ rule.lhs → .nonterminal other.lhs ∉ rule.symbols) :
    Undisturbed (rule :: rules) := by
  intro former between later hs hl hne
  rcases sublist_cons_iff.1 hs with hs | ⟨rest, heq, hr⟩
  · exact h former between later hs hl hne
  · cases heq
    exact ho between (hr.subset mem_cons_self) hne

/-! ## Rules of a checked grammar -/

section Flatten

variable {desc : Description} {owner : String} {count : Nat}

private theorem undisturbed_flattenSymbols {isToken : String → Bool} (symbols : List Symbol) :
    Undisturbed (flattenSymbols isToken owner count symbols).2.1 := by
  induction symbols using sequence_induction generalizing count with
  | nil => exact undisturbed_nil
  | ref name rest ih =>
    rw [flattenSymbols_ref]
    exact ih
  | literal text rest ih =>
    rw [flattenSymbols_literal]
    exact ih
  | group quantifier body rest ihbody ihrest =>
    simp only [flattenSymbols_group, count_flattenSymbols]
    refine (ihbody.append (undisturbed_of_lhs_eq fun rule => lhs_of_mem_groupRules) ?_).append ihrest ?_
    · intro rule hr other ho heq
      obtain ⟨index, hlt, -, hl⟩ := lhs_of_mem_flattenSymbols hr
      have := hiddenName_index_inj (hl.symm.trans (heq.trans (lhs_of_mem_groupRules ho)))
      omega
    · intro rule hr other ho heq
      obtain ⟨next, hn, -, hl'⟩ := lhs_of_mem_flattenSymbols ho
      rcases mem_append.1 hr with hr | hr
      · obtain ⟨index, -, hle, hl⟩ := lhs_of_mem_flattenSymbols hr
        have := hiddenName_index_inj (hl.symm.trans (heq.trans hl'))
        omega
      · have := hiddenName_index_inj ((lhs_of_mem_groupRules hr).symm.trans (heq.trans hl'))
        omega

private theorem undisturbed_flattenAlternatives (hn : ∀ name ∈ desc.names, '#' ∉ name.toList)
    (ho : '#' ∉ owner.toList) {alts : List Alternative}
    (hs : ∀ alt ∈ alts, Sensible desc owner alt.symbols) :
    Undisturbed (flattenAlternatives desc.tokenNames.contains owner count alts) := by
  induction alts generalizing count with
  | nil => exact undisturbed_nil
  | cons alt alts ih =>
    rw [forall_mem_cons] at hs
    rw [flattenAlternatives_cons]
    refine (undisturbed_flattenSymbols _).append ((ih hs.2).cons ?_) ?_
    · -- what follows belongs to groups that open later
      intro other hot hne hu
      rcases lhs_of_mem_flattenAlternatives hot with hl | ⟨index, hlt, -, hl⟩
      · exact hne hl
      · refine (forall_mem_flattenSymbols (P := (· ≠ .nonterminal (hiddenName owner index)))
          (fun _ _ => nofun) ?_ hs.1 (fun _ _ => nofun) ?_).1 _ (hl ▸ hu) rfl
        · exact fun name hnm heq =>
            hn name hnm (FlatSymbol.nonterminal.inj heq ▸ hash_mem_hiddenName owner index)
        · intro rule hr heq
          obtain ⟨used, -, hle, hlu⟩ := lhs_of_mem_flattenSymbols hr
          rw [hlu, FlatSymbol.nonterminal.injEq] at heq
          have := hiddenName_index_inj heq
          omega
    · intro rule hr other hot heq
      obtain ⟨index, -, hle, hl⟩ := lhs_of_mem_flattenSymbols hr
      rw [hl] at heq
      rcases mem_cons.1 hot with rfl | hot
      · exact hiddenName_ne ho index heq.symm
      · rcases lhs_of_mem_flattenAlternatives hot with hl' | ⟨next, hlt, -, hl'⟩
        · exact hiddenName_ne ho index (heq.trans hl').symm
        · have := hiddenName_index_inj (heq.trans hl')
          omega

end Flatten

/-- In a checked grammar no rules for something that a rule uses stand between it and a later rule of its nonterminal. -/
theorem Built.undisturbed {desc : Description} {g : Grammar} (h : Built desc g) :
    Undisturbed (g.alternatives.toList.map (·.toFlatRule)) := by
  have hn : ∀ name ∈ desc.names, '#' ∉ name.toList := by
    intro name hnm
    obtain ⟨production, hp, rfl⟩ := mem_map.1 hnm
    exact h.hash_not_mem hp
  rw [h.map_toFlatRule, flatten]
  have ha : ∀ production ∈ desc.productions, '#' ∉ production.name.toList ∧
      ∀ alt ∈ production.alternatives, Sensible desc production.name alt.symbols :=
    fun production hp => ⟨h.hash_not_mem hp, fun _ => h.sensible hp⟩
  have hnd := (names_of_check h.names_checked).1
  generalize desc.productions = productions at ha hnd
  induction productions with
  | nil => exact undisturbed_nil
  | cons production productions ih =>
    rw [forall_mem_cons] at ha
    rw [map_cons, nodup_cons] at hnd
    rw [flatMap_cons]
    refine (undisturbed_flattenAlternatives hn ha.1.1 ha.1.2).append (ih ha.2 hnd.2) ?_
    intro rule hr other ho heq
    obtain ⟨owner, how, ho⟩ := mem_flatMap.1 ho
    have hs := (owns_of_mem_flattenAlternatives hr).eq ha.1.1 (ha.2 owner how).1
      (heq ▸ owns_of_mem_flattenAlternatives ho)
    exact hnd.1 (hs ▸ mem_map_of_mem how)

/-! ## The sweeps -/

namespace NullTable

variable {alts : List FlatAlternative} {table : NullTable}

/-- A table in which every entry names the earliest alternative that rests on the entries before it. -/
inductive Noted (alternatives : List FlatAlternative) : NullTable → Prop
  | nil : Noted alternatives []
  | snoc {table : NullTable} {passed rest : List FlatAlternative} {alternative : FlatAlternative} :
      Noted alternatives table → alternatives = passed ++ alternative :: rest →
        table.lookup alternative.lhs = none → table.covers alternative.symbols →
          (∀ earlier ∈ passed, earlier.lhs = alternative.lhs → ¬ table.covers earlier.symbols) →
            Noted alternatives (table ++ [(alternative.lhs, alternative.id)])

/-- An entry that is not used makes no difference. -/
private theorem covers_of_covers_snoc {symbols : List FlatSymbol} (h : (table ++ [(name, id)]).covers symbols)
    (hn : .nonterminal name ∉ symbols) : table.covers symbols := by
  rw [covers, all_eq_true]
  intro symbol hs
  obtain ⟨used, rfl, hu⟩ := exists_of_covers h hs
  rw [lookup_snoc, Option.isSome_or, Bool.or_eq_true] at hu
  refine hu.resolve_right fun hl => ?_
  split at hl
  · next heq =>
    obtain rfl : used = name := beq_iff_eq.1 heq
    exact hn hs
  · cases hl

/-- Of the alternatives passed in a sweep, those whose nonterminal is still to come in the sweep do not rest on the
table. -/
def Unready (table : NullTable) (passed rest : List FlatAlternative) : Prop :=
  ∀ earlier ∈ passed, (∃ later ∈ rest, earlier.lhs = later.lhs) → table.lookup earlier.lhs = none →
    ¬ table.covers earlier.symbols

theorem Noted.visit (h : Noted alts table) (hr : Undisturbed (alts.map (·.toFlatRule)))
    {passed rest : List FlatAlternative} {alt : FlatAlternative}
    (hs : alts = passed ++ alt :: rest) (hu : Unready table passed (alt :: rest)) :
    Noted alts (table.visit alt) ∧ Unready (table.visit alt) (passed ++ [alt]) rest := by
  rcases visit_eq_or table alt with ⟨heq, hk⟩ | ⟨heq, hn, hc⟩
  · rw [heq]
    refine ⟨h, ?_⟩
    intro earlier he ⟨later, hl, hlh⟩ hlk
    rcases mem_append.1 he with he | he
    · exact hu earlier he ⟨later, mem_cons_of_mem _ hl, hlh⟩ hlk
    · rw [mem_singleton] at he
      subst he
      intro hc
      simpa [hlk] using hk hc
  · rw [heq]
    refine ⟨h.snoc hs hn hc fun earlier he hlh => ?_, ?_⟩
    · exact hu earlier he ⟨alt, mem_cons_self, hlh⟩ (hlh ▸ hn)
    · intro earlier he ⟨later, hl, hlh⟩ hlk
      rw [lookup_snoc, Option.or_eq_none_iff] at hlk
      have hne : alt.lhs ≠ earlier.lhs := fun hsa => by simp [hsa] at hlk
      rcases mem_append.1 he with he | he
      · intro hc'
        have hsb : [earlier, alt, later].Sublist alts := by
          rw [hs]
          exact (singleton_sublist.2 he).append ((singleton_sublist.2 hl).cons_cons alt)
        have hnt := hr earlier.toFlatRule alt.toFlatRule later.toFlatRule
          (hsb.map fun other : FlatAlternative => other.toFlatRule) hlh hne
        exact hu earlier he ⟨later, mem_cons_of_mem _ hl, hlh⟩ hlk.1 (covers_of_covers_snoc hc' hnt)
      · exact absurd (mem_singleton.1 he ▸ rfl) hne

theorem Noted.visitAll (h : Noted alts table) (hr : Undisturbed (alts.map (·.toFlatRule)))
    {passed rest : List FlatAlternative} (hs : alts = passed ++ rest) (hu : Unready table passed rest) :
    Noted alts (rest.foldl NullTable.visit table) := by
  induction rest generalizing passed table with
  | nil => exact h
  | cons alt rest ih =>
    obtain ⟨hn, hu⟩ := h.visit hr hs hu
    exact ih hn (by rw [hs, append_assoc, singleton_append]) hu

theorem Noted.sweep (h : Noted alts table) (hr : Undisturbed (alts.map (·.toFlatRule)))
    (rounds : Nat) : Noted alts (sweep alts rounds table) := by
  induction rounds generalizing table with
  | zero => exact h
  | succ rounds ih =>
    unfold NullTable.sweep
    simp only
    split
    · exact h
    · refine ih (h.visitAll hr (nil_append _).symm ?_)
      exact forall_mem_nil _

private theorem Noted.exists_split (h : Noted alts table) (hn : table.lookup name = some id) :
    ∃ before after passed alt rest, table = before ++ (name, id) :: after ∧
      alts = passed ++ alt :: rest ∧ alt.lhs = name ∧ alt.id = id ∧
        before.covers alt.symbols ∧
          ∀ earlier ∈ passed, earlier.lhs = name → ¬ before.covers earlier.symbols := by
  induction h with
  | nil => cases hn
  | @snoc table passed rest alt _ hs hnw hc hp ih =>
    rw [lookup_snoc] at hn
    cases hold : table.lookup name with
    | some found =>
      rw [hold, Option.some_or] at hn
      obtain ⟨before, after, passed, alt, rest, ht, hr⟩ := ih (hold.trans hn)
      exact ⟨before, after ++ [_], passed, alt, rest, by rw [ht, append_assoc, cons_append], hr⟩
    | none =>
      rw [hold, Option.none_or] at hn
      split at hn
      · next heq =>
        cases hn
        rw [beq_iff_eq] at heq
        subst heq
        exact ⟨table, [], passed, alt, rest, rfl, hs, rfl, rfl, hc, hp⟩
      · cases hn

end NullTable

/-- For a nullable nonterminal of a checked grammar the table names the earliest alternative that rests on the
nonterminals found before. -/
theorem Built.exists_noted {desc : Description} {g : Grammar} (h : Built desc g)
    (hn : g.nullTable.lookup name = some id) :
    ∃ alt ∈ g.alternativesOf name, alt.id = id ∧ ∃ before after,
      g.nullTable = before ++ (name, id) :: after ∧ before.covers alt.symbols ∧
        ∀ earlier ∈ g.alternativesOf name, earlier.rank < alt.rank →
          ¬ before.covers earlier.symbols := by
  have hnt : NullTable.Noted g.alternatives.toList g.nullTable := by
    rw [h.nullTable_eq]
    exact NullTable.Noted.nil.sweep h.undisturbed _
  obtain ⟨before, after, passed, alt, rest, ht, hs, rfl, hid, hc, hp⟩ :=
    hnt.exists_split hn
  have hm : alt ∈ g.alternativesOf alt.lhs :=
    mem_alternativesOf_iff.2 ⟨hs ▸ mem_append_right _ mem_cons_self, rfl⟩
  refine ⟨alt, hm, hid, before, after, ht, hc, fun earlier he hr => ?_⟩
  obtain ⟨he, hl⟩ := mem_alternativesOf_iff.1 he
  refine hp earlier ?_ hl
  -- ranks grow along the alternatives of the nonterminal
  have hrn := h.ranked alt.lhs
  rw [alternativesOf, hs, filter_append, filter_cons_of_pos (by simp), pairwise_append, pairwise_cons] at hrn
  rw [hs, mem_append, mem_cons] at he
  rcases he with he | rfl | he
  · exact he
  · exact absurd hr (Nat.lt_irrefl _)
  · have := hrn.2.1.1 earlier (mem_filter.2 ⟨he, beq_iff_eq.2 hl⟩)
    omega

/-! ## Unfolding -/

/-- In a sequence, a nullable nonterminal gives way to the symbols of the alternative that is noted for it. -/
inductive Unfolds (grammar : Grammar) : List FlatSymbol → List FlatSymbol → Prop
  | intro (before after : List FlatSymbol) {alternative : FlatAlternative} :
      alternative ∈ grammar.alternatives.toList → grammar.nullTable.lookup alternative.lhs = some alternative.id →
        Unfolds grammar (before ++ .nonterminal alternative.lhs :: after) (before ++ alternative.symbols ++ after)

variable {g : Grammar}

/-- The size of the derivations of nothing from the symbols of a sequence. -/
noncomputable def weight (grammar : Grammar) (symbols : List FlatSymbol) : Nat :=
  (symbols.map fun symbol => sizeOf (grammar.emptyDerivation symbol.name 0)).sum

private theorem weight_append (before after : List FlatSymbol) :
    g.weight (before ++ after) = g.weight before + g.weight after := by
  rw [weight, map_append, sum_append, weight, weight]

private theorem weight_lt_sizeOf (symbols : List FlatSymbol) :
    g.weight symbols < sizeOf (symbols.map (g.emptyDerivation ·.name 0)) := by
  induction symbols with
  | nil => simp [weight]
  | cons symbol symbols ih =>
    simp only [weight, map_cons, sum_cons, List.cons.sizeOf_spec] at ih ⊢
    omega

/-- The derivation of nothing from a nonterminal is larger than those from the symbols of its noted alternative. -/
private theorem Unfolds.weight_lt (hg : g.Tabulated) {symbols next : List FlatSymbol} (h : g.Unfolds symbols next) :
    g.weight next < g.weight symbols := by
  cases h with
  | @intro before after alt hm hl =>
    have hs := @weight_lt_sizeOf g alt.symbols
    have hd : sizeOf (g.emptyDerivation alt.lhs 0) = _ := congrArg sizeOf (emptyDerivation_eq hg hm hl 0).1
    have hc : g.weight (.nonterminal alt.lhs :: after) = sizeOf (g.emptyDerivation alt.lhs 0) + g.weight after := rfl
    rw [Derivation.empty.sizeOf_spec] at hd
    rw [weight_append, weight_append, weight_append, hc]
    omega

/-- The nullable nonterminals are those that derive nothing. For each, an alternative of its own over nullable
nonterminals is noted, by which its derivation of nothing begins, and replacing nullable nonterminals by the symbols of
their noted alternatives comes to an end. -/
theorem nullable_exact {description : Description} {grammar : Grammar} (hbuild : build description = .ok grammar) :
    (∀ name, grammar.isNullable name ↔ grammar.Generates name []) ∧
    (∀ name, grammar.isNullable name → ∃ alternative ∈ grammar.alternativesOf name,
      grammar.nullTable.lookup name = some alternative.id ∧ grammar.alternatives[alternative.id]? = some alternative ∧
      (∀ symbol ∈ alternative.symbols, ∃ used, symbol = .nonterminal used ∧ grammar.isNullable used) ∧
      ∀ position, grammar.emptyDerivation name position =
        .empty name position (alternative.symbols.map (grammar.emptyDerivation ·.name position))) ∧
    WellFounded fun next symbols => grammar.Unfolds symbols next := by
  have h := built_of_build hbuild
  have hg := h.tabulated
  refine ⟨fun _ => hg.isNullable_iff, fun name hn => ?_,
    Subrelation.wf (Unfolds.weight_lt hg) (measure grammar.weight).wf⟩
  obtain ⟨id, hl⟩ := Option.isSome_iff_exists.1 hn
  obtain ⟨alt, hm, rfl, before, after, ht, hc, -⟩ := h.exists_noted hl
  obtain ⟨ha, rfl⟩ := mem_alternativesOf_iff.1 hm
  exact ⟨alt, hm, hl, hg.getElem?_id ha, fun _ => NullTable.exists_of_covers (ht ▸ NullTable.covers_append _ hc),
    fun position => (emptyDerivation_eq hg ha hl position).1⟩

/-- The nonterminal of the cyclic grammar derives nothing also by way of itself, but it is not unfolded to itself. -/
theorem nullable_exact_of_loop : ∃ grammar, build loop = .ok grammar ∧ grammar.isNullable "A" ∧
    ¬ grammar.Unfolds [.nonterminal "A"] [.nonterminal "A"] := by
  obtain ⟨grammar, hb⟩ := exists_build_loop
  have hs : grammar.start = "A" := (built_of_build hb).start_eq
  refine ⟨grammar, hb, ((nullable_exact hb).1 "A").2 ?_, (nullable_exact hb).2.2.irrefl.irrefl _⟩
  exact hs ▸ (built_of_build hb).generates_loop.2

end Grammar

end TreeLint
