import Mathlib.Data.List.Nodup
import TreeLint.Proofs.CheckedNames

/-!
# Flat alternatives stand for the productions

The groups of a production are numbered in the order in which they open, and each becomes a hidden nonterminal of its
own. The flat alternatives of a checked grammar therefore derive exactly what its productions are read as.

* `Grammar.Production.groups`: the groups of a production, in the order in which they open;
* `Grammar.hiddenName_inj`: hidden names are different for different groups;
* `Grammar.Built.lowering`: the alternatives of a checked grammar take the place of its productions;
* `Grammar.lowering_preserves_language`: productions and flat alternatives have the same sentences.
-/

namespace TreeLint

open List

variable {rule : FlatRule} {name : String}

namespace Grammar

/-- What holds of no symbols, and of a sequence if it holds of what follows its first symbol and of what a group at its
beginning contains, holds of all sequences. -/
theorem sequence_induction {motive : List Symbol → Prop} (nil : motive [])
    (ref : ∀ name rest, motive rest → motive (.ref name :: rest))
    (literal : ∀ text rest, motive rest → motive (.literal text :: rest))
    (group : ∀ quantifier body rest, motive body → motive rest → motive (.group quantifier body :: rest))
    (symbols : List Symbol) : motive symbols :=
  @Symbol.rec_1 (fun symbol => ∀ rest, motive rest → motive (symbol :: rest)) motive ref literal
    (fun quantifier body hb rest => group quantifier body rest hb) nil
    (fun _ rest hf hr => hf rest hr) symbols

mutual

/-- The groups in a symbol, in the order in which they open. -/
def groupsOfSymbol : Symbol → List (Quantifier × List Symbol)
  | .ref _ => []
  | .literal _ => []
  | .group quantifier symbols => (quantifier, symbols) :: groupsOfSymbols symbols

/-- The groups in a sequence of symbols, in the order in which they open. -/
def groupsOfSymbols : List Symbol → List (Quantifier × List Symbol)
  | [] => []
  | symbol :: symbols => groupsOfSymbol symbol ++ groupsOfSymbols symbols

end

/-- The groups of a production, in the order in which they open. -/
def Production.groups (production : Production) : List (Quantifier × List Symbol) :=
  production.alternatives.flatMap fun alternative => groupsOfSymbols alternative.symbols

/-! ## Hidden names -/

private theorem takeWhile_hiddenName {owner : String} (h : '#' ∉ owner.toList) (index : Nat) :
    (hiddenName owner index).toList.takeWhile (· != '#') = owner.toList := by
  have ha : ∀ c ∈ owner.toList, (c != '#') = true := by
    intro c hc
    rw [bne_iff_ne]
    rintro rfl
    exact h hc
  rw [hiddenName, String.append_assoc, String.toList_append, takeWhile_append_of_pos ha]
  simp

theorem hash_mem_hiddenName (owner : String) (index : Nat) : '#' ∈ (hiddenName owner index).toList := by
  simp [hiddenName]

theorem hiddenName_index_inj {owner : String} {i j : Nat} (h : hiddenName owner i = hiddenName owner j) : i = j := by
  have hl := congrArg String.toList h
  simp only [hiddenName, String.toList_append, append_cancel_left_eq] at hl
  have hn := congrArg (fun digits => Nat.ofDigitChars 10 digits 0) hl
  simpa [Nat.toString_eq_ofList_toDigits] using hn

theorem hiddenName_inj {owner other : String} {i j : Nat} (ho : '#' ∉ owner.toList) (hot : '#' ∉ other.toList)
    (h : hiddenName owner i = hiddenName other j) : owner = other ∧ i = j := by
  have hn : owner = other := by
    rw [← String.toList_inj, ← takeWhile_hiddenName ho i, h, takeWhile_hiddenName hot]
  subst hn
  exact ⟨rfl, hiddenName_index_inj h⟩

def Owns (owner name : String) : Prop :=
  name = owner ∨ ∃ index, name = hiddenName owner index

theorem Owns.eq {owner other : String} (ho : '#' ∉ owner.toList) (hot : '#' ∉ other.toList) (h : Owns owner name)
    (h' : Owns other name) : owner = other := by
  rcases h with rfl | ⟨i, rfl⟩ <;> rcases h' with heq | ⟨j, heq⟩
  · exact heq
  · exact absurd (heq ▸ hash_mem_hiddenName other j) ho
  · exact absurd (heq ▸ hash_mem_hiddenName owner i) hot
  · exact (hiddenName_inj ho hot heq).1

/-! ## Sequences of symbols -/

section Flatten

variable {isToken : String → Bool} {owner : String} {count : Nat}

theorem flattenSymbols_ref (name : String) (rest : List Symbol) :
    flattenSymbols isToken owner count (.ref name :: rest) =
      let (flat, rules, after) := flattenSymbols isToken owner count rest
      ((if isToken name then .terminal name else .nonterminal name) :: flat, rules, after) := by
  rw [flattenSymbols, flattenSymbol]
  rfl

theorem flattenSymbols_literal (text : String) (rest : List Symbol) :
    flattenSymbols isToken owner count (.literal text :: rest) =
      let (flat, rules, after) := flattenSymbols isToken owner count rest
      (.terminal text :: flat, rules, after) := by
  rw [flattenSymbols, flattenSymbol]
  rfl

theorem flattenSymbols_group (quantifier : Quantifier) (body rest : List Symbol) :
    flattenSymbols isToken owner count (.group quantifier body :: rest) =
      let (inner, innerRules, between) := flattenSymbols isToken owner (count + 1) body
      let (flat, rules, after) := flattenSymbols isToken owner between rest
      (.nonterminal (hiddenName owner (count + 1)) :: flat,
        innerRules ++ groupRules (hiddenName owner (count + 1)) quantifier inner ++ rules, after) := by
  rw [flattenSymbols, flattenSymbol]

theorem count_flattenSymbols (symbols : List Symbol) :
    (flattenSymbols isToken owner count symbols).2.2 = count + (groupsOfSymbols symbols).length := by
  induction symbols using sequence_induction generalizing count with
  | nil => rfl
  | ref name rest ih => simpa [flattenSymbols_ref, groupsOfSymbols, groupsOfSymbol] using ih
  | literal text rest ih => simpa [flattenSymbols_literal, groupsOfSymbols, groupsOfSymbol] using ih
  | group quantifier body rest ihbody ihrest =>
    simp only [flattenSymbols_group, groupsOfSymbols, groupsOfSymbol, ihrest, ihbody, length_append, length_cons]
    omega

theorem lhs_of_mem_groupRules {hidden : String} {quantifier : Quantifier} {flat : List FlatSymbol}
    (h : rule ∈ groupRules hidden quantifier flat) : rule.lhs = hidden := by
  cases quantifier <;> rcases mem_pair.1 h with rfl | rfl <;> rfl

theorem lhs_of_mem_flattenSymbols {symbols : List Symbol} (h : rule ∈ (flattenSymbols isToken owner count symbols).2.1) :
    ∃ index, count < index ∧ index ≤ count + (groupsOfSymbols symbols).length ∧
      rule.lhs = hiddenName owner index := by
  induction symbols using sequence_induction generalizing count with
  | nil => cases h
  | ref name rest ih =>
    rw [flattenSymbols_ref] at h
    simpa [groupsOfSymbols, groupsOfSymbol] using ih h
  | literal text rest ih =>
    rw [flattenSymbols_literal] at h
    simpa [groupsOfSymbols, groupsOfSymbol] using ih h
  | group quantifier body rest ihbody ihrest =>
    simp only [flattenSymbols_group, count_flattenSymbols, mem_append] at h
    simp only [groupsOfSymbols, groupsOfSymbol, length_append, length_cons]
    rcases h with (hb | hg) | hr
    · obtain ⟨index, hlt, hle, heq⟩ := ihbody hb
      exact ⟨index, by omega, by omega, heq⟩
    · exact ⟨count + 1, by omega, by omega, lhs_of_mem_groupRules hg⟩
    · obtain ⟨index, hlt, hle, heq⟩ := ihrest hr
      exact ⟨index, by omega, by omega, heq⟩

/-- No rule of the groups of a sequence belongs to another number. -/
private theorem filter_flattenSymbols_eq_nil (symbols : List Symbol) {index : Nat}
    (h : index ≤ count ∨ count + (groupsOfSymbols symbols).length < index) :
    (flattenSymbols isToken owner count symbols).2.1.filter (·.lhs == hiddenName owner index) = [] := by
  rw [filter_eq_nil_iff]
  intro rule hr heq
  obtain ⟨other, hlt, hle, hl⟩ := lhs_of_mem_flattenSymbols hr
  have := hiddenName_index_inj (hl.symm.trans (beq_iff_eq.1 heq))
  omega

private theorem filter_groupRules {hidden : String} (quantifier : Quantifier) (flat : List FlatSymbol) (name : String) :
    (groupRules hidden quantifier flat).filter (·.lhs == name) =
      if hidden = name then groupRules hidden quantifier flat else [] := by
  split
  next heq =>
    rw [filter_eq_self]
    intro rule hr
    rw [lhs_of_mem_groupRules hr, heq, beq_self_eq_true]
  next hne =>
    rw [filter_eq_nil_iff]
    intro rule hr
    rwa [lhs_of_mem_groupRules hr, beq_iff_eq]

end Flatten

variable {description : Description} {owner : String} {production : Production}
  {isToken : String → Bool} {alts : List Alternative} {count : Nat}

/-! ## Productions -/

/-- The hidden nonterminal with the number of a group takes the place of the group. -/
def Numbered (description : Description) (all : List FlatRule) (owner : String)
    (groups : List ((Quantifier × List Symbol) × Nat)) : Prop :=
  ∀ {quantifier : Quantifier} {body : List Symbol} {index : Nat}, ((quantifier, body), index) ∈ groups →
    Lowers description all (.group quantifier body) (.nonterminal (hiddenName owner index))

/-- If the rules of the groups of a sequence are theirs alone, the flat symbols take the place of the sequence. -/
private theorem lowers_flattenSymbols {all : List FlatRule} {symbols : List Symbol}
    (hs : Sensible description owner symbols)
    (ha : ∀ index, count < index → index ≤ count + (groupsOfSymbols symbols).length →
      all.filter (·.lhs == hiddenName owner index) =
        (flattenSymbols description.tokenNames.contains owner count symbols).2.1.filter
          (·.lhs == hiddenName owner index)) :
    List.Forall₂ (Lowers description all) symbols
        (flattenSymbols description.tokenNames.contains owner count symbols).1 ∧
      Numbered description all owner ((groupsOfSymbols symbols).zipIdx (count + 1)) := by
  induction symbols using sequence_induction generalizing count with
  | nil => exact ⟨.nil, fun hm => absurd hm not_mem_nil⟩
  | ref name rest ih =>
    obtain ⟨hd, hr⟩ := hs.ref
    rw [flattenSymbols_ref] at ha ⊢
    rw [groupsOfSymbols, groupsOfSymbol, nil_append] at ha ⊢
    obtain ⟨hl, hn⟩ := ih hr ha
    refine ⟨.cons ?_ hl, hn⟩
    split
    next ht => exact .token (contains_iff_mem.1 ht)
    next ht =>
      rw [contains_iff_mem] at ht
      exact .production (hd.resolve_left ht) ht
  | literal text rest ih =>
    rw [flattenSymbols_literal] at ha ⊢
    rw [groupsOfSymbols, groupsOfSymbol, nil_append] at ha ⊢
    obtain ⟨hl, hn⟩ := ih hs.literal ha
    exact ⟨.cons .literal hl, hn⟩
  | group quantifier body rest ihbody ihrest =>
    obtain ⟨ho, hb, hr⟩ := hs.group
    simp only [flattenSymbols_group, count_flattenSymbols, filter_append, filter_groupRules, groupsOfSymbols,
      groupsOfSymbol, length_append, length_cons] at ha
    simp only [flattenSymbols_group, count_flattenSymbols, groupsOfSymbols, groupsOfSymbol, cons_append,
      zipIdx_cons, zipIdx_append]
    have hne : ∀ {index : Nat}, count + 1 < index → hiddenName owner (count + 1) ≠ hiddenName owner index :=
      fun hlt heq => absurd (hiddenName_index_inj heq) (Nat.ne_of_lt hlt)
    -- The numbers of the group, of the groups inside it and of those after it are different.
    have hrl : all.filter (·.lhs == hiddenName owner (count + 1)) = groupRules (hiddenName owner (count + 1))
        quantifier (flattenSymbols description.tokenNames.contains owner (count + 1) body).1 := by
      rw [ha (count + 1) (by omega) (by omega), if_pos rfl, filter_flattenSymbols_eq_nil body (.inl (by omega)),
        filter_flattenSymbols_eq_nil rest (.inl (by omega)), nil_append, append_nil]
    obtain ⟨hlw, hnm⟩ := @ihbody (count + 1) hb fun index hlt hle => by
      rw [ha index (by omega) (by omega), if_neg (hne hlt), filter_flattenSymbols_eq_nil rest (.inl (by omega)),
        append_nil, append_nil]
    obtain ⟨hlo, hnu⟩ := @ihrest (count + 1 + (groupsOfSymbols body).length) hr fun index hlt hle => by
      rw [ha index (by omega) (by omega), if_neg (hne (by omega)),
        filter_flattenSymbols_eq_nil body (.inr (by omega)), nil_append, nil_append]
    have hg := Lowers.group ho hlw hrl (hash_mem_hiddenName owner _)
    refine ⟨.cons hg hlo, ?_⟩
    intro quantifier' body' index hm
    rcases mem_cons.1 hm with heq | hm
    · cases heq
      exact hg
    · rcases mem_append.1 hm with hm | hm
      · exact hnm hm
      · refine hnu ?_
        rwa [Nat.add_right_comm (count + 1)] at hm

theorem flattenAlternatives_cons (alt : Alternative) (alts : List Alternative) :
    flattenAlternatives isToken owner count (alt :: alts) =
      (flattenSymbols isToken owner count alt.symbols).2.1 ++
        { lhs := owner, symbols := (flattenSymbols isToken owner count alt.symbols).1,
          assoc := alt.assoc } ::
          flattenAlternatives isToken owner (count + (groupsOfSymbols alt.symbols).length) alts := by
  rw [← count_flattenSymbols, flattenAlternatives]

section Holds

variable {P : FlatSymbol → Prop} (ht : ∀ name ∈ description.tokenNames, P (.terminal name))
  (hp : ∀ name ∈ description.names, P (.nonterminal name))

include ht hp

/-- What holds of tokens, of productions, of the literals of a sequence and of the nonterminals of its groups holds of
all flat symbols that the sequence becomes. -/
theorem forall_mem_flattenSymbols {symbols : List Symbol} (hs : Sensible description owner symbols)
    (hl : ∀ text ∈ literalsOfSymbols symbols, P (.terminal text))
    (hr : ∀ rule ∈ (flattenSymbols description.tokenNames.contains owner count symbols).2.1, P (.nonterminal rule.lhs)) :
    (∀ symbol ∈ (flattenSymbols description.tokenNames.contains owner count symbols).1, P symbol) ∧
      ∀ rule ∈ (flattenSymbols description.tokenNames.contains owner count symbols).2.1,
        ∀ symbol ∈ rule.symbols, P symbol := by
  induction symbols using sequence_induction generalizing count with
  | nil => exact ⟨forall_mem_nil _, forall_mem_nil _⟩
  | ref name rest ih =>
    obtain ⟨hd, hs⟩ := hs.ref
    rw [flattenSymbols_ref] at hr ⊢
    refine (ih hs hl hr).imp_left fun hf => forall_mem_cons.2 ⟨?_, hf⟩
    split
    next hm => exact ht name (contains_iff_mem.1 hm)
    next hm => exact hp name (hd.resolve_left (mt contains_iff_mem.2 hm))
  | literal text rest ih =>
    rw [flattenSymbols_literal] at hr ⊢
    obtain ⟨htx, hl⟩ := forall_mem_cons.1 hl
    exact (ih hs.literal hl hr).imp_left fun hf => forall_mem_cons.2 ⟨htx, hf⟩
  | group quantifier body rest ihbody ihrest =>
    obtain ⟨-, hb, hs⟩ := hs.group
    obtain ⟨hlb, hl⟩ := forall_mem_append.1 hl
    simp only [flattenSymbols_group, forall_mem_append, forall_mem_cons] at hr ⊢
    obtain ⟨⟨hrb, hrg⟩, hr⟩ := hr
    obtain ⟨hf, hi⟩ := ihbody hb hlb hrb
    have hh : P (.nonterminal (hiddenName owner (count + 1))) := by
      cases quantifier <;> exact hrg _ mem_cons_self
    refine (ihrest hs hl hr).imp (⟨hh, ·⟩) (⟨⟨hi, ?_⟩, ·⟩)
    cases quantifier <;> simpa [groupRules, hh] using hf

theorem forall_mem_flattenAlternatives (hs : ∀ alt ∈ alts, Sensible description owner alt.symbols)
    (hl : ∀ alt ∈ alts, ∀ text ∈ literalsOfSymbols alt.symbols, P (.terminal text))
    (hr : ∀ rule ∈ flattenAlternatives description.tokenNames.contains owner count alts, P (.nonterminal rule.lhs)) :
    ∀ rule ∈ flattenAlternatives description.tokenNames.contains owner count alts, ∀ symbol ∈ rule.symbols, P symbol := by
  induction alts generalizing count with
  | nil => exact forall_mem_nil _
  | cons alt alts ih =>
    rw [forall_mem_cons] at hs hl
    rw [flattenAlternatives_cons, forall_mem_append, forall_mem_cons] at hr ⊢
    obtain ⟨hf, hi⟩ := forall_mem_flattenSymbols ht hp hs.1 hl.1 hr.1
    exact ⟨hi, hf, ih hs.2 hl.2 hr.2.2⟩

end Holds

theorem lhs_of_mem_flattenAlternatives (h : rule ∈ flattenAlternatives isToken owner count alts) :
    rule.lhs = owner ∨ ∃ index, count < index ∧
      index ≤ count + (alts.flatMap fun alt => groupsOfSymbols alt.symbols).length ∧
        rule.lhs = hiddenName owner index := by
  induction alts generalizing count with
  | nil => cases h
  | cons alt alts ih =>
    rw [flattenAlternatives_cons, mem_append, mem_cons] at h
    rw [flatMap_cons, length_append]
    rcases h with hi | rfl | hr
    · obtain ⟨index, hlt, hle, heq⟩ := lhs_of_mem_flattenSymbols hi
      exact .inr ⟨index, hlt, by omega, heq⟩
    · exact .inl rfl
    · refine (ih hr).imp_right ?_
      rintro ⟨index, hlt, hle, heq⟩
      exact ⟨index, by omega, by omega, heq⟩

theorem hiddenName_ne (ho : '#' ∉ owner.toList) (index : Nat) : owner ≠ hiddenName owner index :=
  fun heq => ho (heq ▸ hash_mem_hiddenName owner index)

/-- If the rules of the groups of a production are theirs alone, its flat alternatives take its place. -/
private theorem lowers_flattenAlternatives {all : List FlatRule} (ho : '#' ∉ owner.toList)
    (hs : ∀ alt ∈ alts, Sensible description owner alt.symbols)
    (ha : ∀ index, count < index → all.filter (·.lhs == hiddenName owner index) =
      (flattenAlternatives description.tokenNames.contains owner count alts).filter
        (·.lhs == hiddenName owner index)) :
    List.Forall₂ (fun alt rule => List.Forall₂ (Lowers description all) alt.symbols rule.symbols)
        alts
        ((flattenAlternatives description.tokenNames.contains owner count alts).filter (·.lhs == owner)) ∧
      Numbered description all owner
        ((alts.flatMap fun alt => groupsOfSymbols alt.symbols).zipIdx (count + 1)) := by
  induction alts generalizing count with
  | nil => exact ⟨.nil, fun hm => absurd hm not_mem_nil⟩
  | cons alt alts ih =>
    rw [forall_mem_cons] at hs
    simp only [flattenAlternatives_cons, filter_append] at ha
    have hsk : ∀ index, ((owner == hiddenName owner index) = true) = False := fun index =>
      eq_false (by simpa using hiddenName_ne ho index)
    simp only [filter_cons, hsk, if_false] at ha
    obtain ⟨hl, hn⟩ := @lowers_flattenSymbols _ _ count all _ hs.1 fun index hlt hle => by
      have hr : (flattenAlternatives description.tokenNames.contains owner
          (count + (groupsOfSymbols alt.symbols).length) alts).filter
            (·.lhs == hiddenName owner index) = [] := by
        rw [filter_eq_nil_iff]
        intro rule hrl heq
        rw [beq_iff_eq] at heq
        rcases lhs_of_mem_flattenAlternatives hrl with hlh | ⟨other, hot, -, hlh⟩
        · exact hiddenName_ne ho index (hlh.symm.trans heq)
        · have := hiddenName_index_inj (hlh.symm.trans heq)
          omega
      rw [ha index hlt, hr, append_nil]
    obtain ⟨hlw, hnm⟩ := @ih (count + (groupsOfSymbols alt.symbols).length) hs.2 fun index hlt => by
        rw [ha index (by omega), filter_flattenSymbols_eq_nil _ (.inr (by omega)), nil_append]
    have hi : (flattenSymbols description.tokenNames.contains owner count alt.symbols).2.1.filter
        (·.lhs == owner) = [] := by
      rw [filter_eq_nil_iff]
      intro rule hrl heq
      obtain ⟨index, -, -, hlh⟩ := lhs_of_mem_flattenSymbols hrl
      exact hiddenName_ne ho index ((beq_iff_eq.1 heq).symm.trans hlh)
    refine ⟨?_, ?_⟩
    · rw [flattenAlternatives_cons, filter_append, hi, nil_append, filter_cons, if_pos (beq_self_eq_true owner)]
      exact .cons hl hlw
    · rw [flatMap_cons, zipIdx_append]
      intro quantifier body index hm
      rcases mem_append.1 hm with hm | hm
      · exact hn hm
      · refine hnm ?_
        rwa [Nat.add_right_comm count] at hm

theorem owns_of_mem_flattenAlternatives
    (h : rule ∈ flattenAlternatives isToken owner count alts) : Owns owner rule.lhs := by
  rcases lhs_of_mem_flattenAlternatives h with hl | ⟨index, -, -, hl⟩
  · exact .inl hl
  · exact .inr ⟨index, hl⟩

private theorem filter_flatten {productions : List Production}
    (hh : ∀ production ∈ productions, '#' ∉ production.name.toList) (hn : (productions.map (·.name)).Nodup)
    (hp : production ∈ productions) (ho : Owns production.name name) :
    (flatten isToken productions).filter (·.lhs == name) =
      (flattenAlternatives isToken production.name 0 production.alternatives).filter (·.lhs == name) := by
  have hot : ∀ others : List Production, (∀ other ∈ others, '#' ∉ other.name.toList ∧ other.name ≠ production.name) →
        (others.flatMap fun other => flattenAlternatives isToken other.name 0 other.alternatives).filter
          (·.lhs == name) = [] := by
    intro others hot
    rw [filter_eq_nil_iff]
    intro rule hr heq
    rw [beq_iff_eq] at heq
    obtain ⟨other, hoth, hr⟩ := mem_flatMap.1 hr
    have how : Owns other.name name := heq ▸ owns_of_mem_flattenAlternatives hr
    exact (hot other hoth).2 (how.eq (hot other hoth).1 (hh _ hp) ho)
  obtain ⟨before, after, rfl⟩ := append_of_mem hp
  rw [map_append, map_cons, nodup_middle, nodup_cons, ← map_append] at hn
  have ha : ∀ other ∈ before ++ after, '#' ∉ other.name.toList ∧ other.name ≠ production.name := by
    intro other hoth
    refine ⟨hh other ?_, fun heq => hn.1 (heq ▸ mem_map_of_mem hoth)⟩
    rw [mem_append] at hoth
    rw [mem_append, mem_cons]
    exact hoth.imp_right .inr
  rw [forall_mem_append] at ha
  rw [flatten, flatMap_append, flatMap_cons, filter_append, filter_append, hot _ ha.1,
    hot _ ha.2, nil_append, append_nil]

private theorem map_numberRules (before rules : List FlatRule) : (numberRules before rules).map
    (·.toFlatRule) = rules := by
  induction rules generalizing before with
  | nil => rfl
  | cons rule rules ih => rw [numberRules, map_cons, ih]

namespace Built

variable {g : Grammar}

theorem map_toFlatRule (h : Built description g) : g.alternatives.toList.map (·.toFlatRule) =
    flatten description.tokenNames.contains description.productions := by
  rw [h.alternatives_eq, flatAlternatives, map_numberRules]

theorem hash_not_mem (h : Built description g) (hp : production ∈ description.productions) :
    '#' ∉ production.name.toList :=
  ((names_of_check h.names_checked).2 production hp).1

private theorem lowers_production (h : Built description g) (hp : production ∈ description.productions) :
    List.Forall₂ (fun alt rule =>
        List.Forall₂ (Lowers description (g.alternatives.toList.map (·.toFlatRule))) alt.symbols
          rule.symbols)
      production.alternatives ((g.alternatives.toList.map (·.toFlatRule)).filter (·.lhs == production.name)) ∧
    Numbered description (g.alternatives.toList.map (·.toFlatRule)) production.name
      (production.groups.zipIdx 1) := by
  have hf : ∀ {name : String}, Owns production.name name →
      (flatten description.tokenNames.contains description.productions).filter (·.lhs == name) =
        (flattenAlternatives description.tokenNames.contains production.name 0 production.alternatives).filter
          (·.lhs == name) :=
    fun ho => filter_flatten (fun other => h.hash_not_mem) (names_of_check h.names_checked).1 hp ho
  rw [h.map_toFlatRule, hf (.inl rfl)]
  exact lowers_flattenAlternatives (h.hash_not_mem hp) (fun alt => h.sensible hp)
    fun index _ => hf (.inr ⟨index, rfl⟩)

/-- The alternatives of a checked grammar take the place of its productions. -/
theorem lowering (h : Built description g) : Lowering description g.alternatives.toList where
  disjoint hp := h.not_mem_tokenNames (mem_map_of_mem hp)
  lowers hp := (h.lowers_production hp).1

end Built

/-! ## The same sentences -/

/-- The names of the nonterminals for the groups of a production, in the order in which the groups open. -/
def Production.hiddenNames (production : Production) : List String :=
  (List.range' 1 production.groups.length).map (hiddenName production.name)

def Description.hiddenNames (description : Description) : List String :=
  description.productions.flatMap (·.hiddenNames)

theorem hash_mem_of_mem_hiddenNames (h : name ∈ description.hiddenNames) : '#' ∈ name.toList := by
  obtain ⟨production, -, hm⟩ := mem_flatMap.1 h
  obtain ⟨index, -, rfl⟩ := mem_map.1 hm
  exact hash_mem_hiddenName production.name index

theorem hash_not_mem_of_mem_reservedKinds (h : name ∈ reservedKinds) : '#' ∉ name.toList := by
  have ha : ∀ kind ∈ reservedKinds, '#' ∉ kind.toList := by decide
  exact ha name h

namespace Built

variable {g : Grammar}

private theorem nodup_hiddenNames (h : Built description g) : description.hiddenNames.Nodup := by
  rw [Description.hiddenNames, nodup_flatMap]
  constructor
  · intro production _
    exact List.Nodup.map (fun _ _ => hiddenName_index_inj) nodup_range'
  · have hn := (names_of_check h.names_checked).1
    rw [List.Nodup, pairwise_map] at hn
    refine hn.imp_of_mem ?_
    intro first second hf hs hne name hm hm'
    obtain ⟨i, -, rfl⟩ := mem_map.1 hm
    obtain ⟨j, -, heq⟩ := mem_map.1 hm'
    exact hne (hiddenName_inj (h.hash_not_mem hs) (h.hash_not_mem hf) heq).1.symm

theorem not_mem_names_of_hash (h : Built description g) (hh : '#' ∈ name.toList) : name ∉ description.names := by
  intro hn
  obtain ⟨production, hm, rfl⟩ := mem_map.1 hn
  exact h.hash_not_mem hm hh

/-- A group does not share its name with a production. -/
theorem not_mem_names_of_mem_hiddenNames (h : Built description g) (hn : name ∈ description.hiddenNames) :
    name ∉ description.names :=
  h.not_mem_names_of_hash (hash_mem_of_mem_hiddenNames hn)

/-- Every alternative belongs to a production or to a group. -/
theorem lhs_mem (h : Built description g) {alt : FlatAlternative} (hm : alt ∈ g.alternatives.toList) :
    alt.lhs ∈ description.names ∨ alt.lhs ∈ description.hiddenNames := by
  have hr : alt.toFlatRule ∈ flatten description.tokenNames.contains description.productions := by
    rw [← h.map_toFlatRule]
    exact mem_map_of_mem hm
  obtain ⟨production, hp, hr⟩ := mem_flatMap.1 hr
  rcases lhs_of_mem_flattenAlternatives hr with hl | ⟨index, hlt, hle, hl⟩
  · exact .inl (mem_map.2 ⟨production, hp, hl.symm⟩)
  · refine .inr (mem_flatMap.2 ⟨production, hp, mem_map.2 ⟨index, ?_, hl.symm⟩⟩)
    rw [mem_range'_1]
    rw [Nat.zero_add] at hle
    exact ⟨hlt, Nat.lt_one_add_iff.2 hle⟩

end Built

theorem map_alternativesOf (g : Grammar) (name : String) : (g.alternativesOf name).map (·.toFlatRule) =
    (g.alternatives.toList.map (·.toFlatRule)).filter (·.lhs == name) := by
  rw [alternativesOf, filter_map]
  rfl

/-- Productions and flat alternatives have the same sentences, and each group has a nonterminal to itself, whose two
alternatives stand for the rounds of the group. -/
theorem lowering_preserves_language {grammar : Grammar} (hbuild : build description = .ok grammar) :
    (∀ production ∈ description.productions, ∀ kinds,
      Reads description [.ref production.name] kinds ↔ grammar.Generates production.name kinds) ∧
    (∀ production ∈ description.productions, ∀ quantifier body index,
      ((quantifier, body), index) ∈ production.groups.zipIdx 1 →
        (∀ kinds, Reads description [.group quantifier body] kinds ↔
          grammar.Generates (hiddenName production.name index) kinds) ∧
        ∃ flat, (∀ kinds, Reads description body kinds ↔ Derives grammar.alternatives.toList flat kinds) ∧
          (grammar.alternativesOf (hiddenName production.name index)).map (·.toFlatRule) =
            groupRules (hiddenName production.name index) quantifier flat) ∧
    description.hiddenNames.Nodup ∧ (∀ name ∈ description.hiddenNames, name ∉ description.names) ∧
    ∀ alternative ∈ grammar.alternatives.toList,
      alternative.lhs ∈ description.names ∨ alternative.lhs ∈ description.hiddenNames := by
  have h := built_of_build hbuild
  refine ⟨?_, ?_, h.nodup_hiddenNames, fun _ => h.not_mem_names_of_mem_hiddenNames, fun _ => h.lhs_mem⟩
  · intro production hp kinds
    have hn : production.name ∈ description.names := mem_map_of_mem hp
    exact (h.lowering.derives_iff_reads (.cons (.production hn (h.not_mem_tokenNames hn)) .nil)).symm
  · intro production hp quantifier body index hm
    have hg := (h.lowers_production hp).2 hm
    refine ⟨fun kinds => (h.lowering.derives_iff_reads (.cons hg .nil)).symm, ?_⟩
    cases hg with
    | @group _ _ flat _ ho hb hr =>
      exact ⟨flat, fun kinds => (h.lowering.derives_iff_reads hb).symm, by rw [map_alternativesOf, hr]⟩

/-- Lists in brackets: the items stand in a group, and those after the first in a group inside it. -/
def bracketed : Description where
  name := "bracketed"
  productions := [{
    name := "list"
    alternatives := [{ symbols := [.literal "[",
      .group .optional [.literal "a", .group .star [.literal ",", .literal "a"]], .literal "]"] }] }]
  suppression := { directive := "x" }

theorem bracketed_preserves_language : ∃ grammar, build bracketed = .ok grammar ∧
    bracketed.hiddenNames = ["list#1", "list#2"] ∧
    (∀ kinds, Reads bracketed [.ref "list"] kinds ↔ grammar.Generates "list" kinds) ∧
    ∀ kinds, Reads bracketed [.group .star [.literal ",", .literal "a"]] kinds ↔ grammar.Generates "list#2" kinds := by
  have hok : (build bracketed).isOk = true := by decide +kernel
  obtain ⟨grammar, hb⟩ := exists_eq_ok hok
  obtain ⟨hp, hg, -⟩ := lowering_preserves_language hb
  have hi : ((.star, [.literal ",", .literal "a"]), 2) ∈
      (bracketed.productions.flatMap (·.groups)).zipIdx 1 := by
    simp [bracketed, Production.groups, groupsOfSymbols, groupsOfSymbol]
  exact ⟨grammar, hb, by decide +kernel, hp _ mem_cons_self, (hg _ mem_cons_self _ _ 2 hi).1⟩

/-- A grammar with a literal that is spelled like the nonterminal of the group in which it stands. -/
def misnamed : Description where
  name := "misnamed"
  productions := [{ name := "S", alternatives := [{ symbols := [.group .star [.literal "S#1"]] }] }]
  suppression := { directive := "x" }

end Grammar

end TreeLint
