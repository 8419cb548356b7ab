import Mathlib.Data.List.Forall2
import TreeLint.Proofs.CheckedGrammar

/-!
# What groups stand for

The productions of a description are read as they are written: a group stands for as many rounds of its symbols as its
mark allows. The flat alternatives know no groups, and a hidden nonterminal takes the place of each.

* `Grammar.Reads`: a sequence of symbols stands for a sequence of kinds;
* `Grammar.Lowers`: a flat symbol takes the place of a symbol, and the rules of a hidden nonterminal are those of its
  group;
* `Grammar.Lowering.derives_iff_reads`: where every production is lowered, flat symbols derive what the symbols in whose
  place they stand are read as.
-/

namespace TreeLint

open List

namespace Grammar

def Quantifier.Allows : Quantifier → Nat → Prop
  | .optional, rounds => rounds ≤ 1
  | .star, _ => True
  | .plus, rounds => 1 ≤ rounds
  | .other _, _ => False

/-- A sequence of symbols stands for a sequence of kinds by the productions of a description. -/
inductive Reads (description : Description) : List Symbol → List String → Prop
  | nil : Reads description [] []
  | literal {text : String} {symbols : List Symbol} {kinds : List String} :
      Reads description symbols kinds → Reads description (.literal text :: symbols) (text :: kinds)
  | token {name : String} {symbols : List Symbol} {kinds : List String} : name ∈ description.tokenNames →
      Reads description symbols kinds → Reads description (.ref name :: symbols) (name :: kinds)
  | production {production : Production} {alternative : Alternative} {symbols : List Symbol}
      {first rest : List String} : production ∈ description.productions → alternative ∈ production.alternatives →
      Reads description alternative.symbols first → Reads description symbols rest →
        Reads description (.ref production.name :: symbols) (first ++ rest)
  | group {quantifier : Quantifier} {body symbols : List Symbol} {first rest : List String} (rounds : Nat) :
      quantifier.Allows rounds → Reads description (List.replicate rounds body).flatten first →
      Reads description symbols rest → Reads description (.group quantifier body :: symbols) (first ++ rest)

variable {desc : Description} {kinds : List String}

theorem Reads.append {before after : List Symbol} {first rest : List String} (hf : Reads desc before first)
    (hr : Reads desc after rest) : Reads desc (before ++ after) (first ++ rest) := by
  induction hf with
  | nil => exact hr
  | literal _ ih => exact .literal ih
  | token hm _ ih => exact .token hm ih
  | production hp ha hs _ _ ih =>
    rw [append_assoc]
    exact .production hp ha hs ih
  | group rounds hall hs _ _ ih =>
    rw [append_assoc]
    exact .group rounds hall hs ih

private theorem reads_group_iff {quantifier : Quantifier} {body : List Symbol} :
    Reads desc [.group quantifier body] kinds ↔
      ∃ rounds, quantifier.Allows rounds ∧ Reads desc (List.replicate rounds body).flatten kinds := by
  constructor
  · intro h
    cases h with
    | group rounds ha hs hr =>
      cases hr with
      | nil => exact ⟨rounds, ha, by rwa [append_nil]⟩
  · rintro ⟨rounds, ha, hs⟩
    have h := Reads.group rounds ha hs .nil
    rwa [append_nil] at h

private theorem flatten_replicate_succ {α : Type} (rounds : Nat) (body : List α) :
    (List.replicate (rounds + 1) body).flatten = (List.replicate rounds body).flatten ++ body := by
  rw [replicate_succ', flatten_append, flatten_singleton]

/-! ## Flat symbols in the place of symbols -/

/-- A flat symbol takes the place of a symbol. The nonterminals of groups are told by the mark in their names. -/
inductive Lowers (description : Description) (rules : List FlatRule) : Symbol → FlatSymbol → Prop
  | literal {text : String} : Lowers description rules (.literal text) (.terminal text)
  | token {name : String} : name ∈ description.tokenNames → Lowers description rules (.ref name) (.terminal name)
  | production {name : String} : name ∈ description.names → name ∉ description.tokenNames →
      Lowers description rules (.ref name) (.nonterminal name)
  | group {quantifier : Quantifier} {body : List Symbol} {flat : List FlatSymbol} {hidden : String} :
      quantifier.Allows 1 → List.Forall₂ (Lowers description rules) body flat →
      rules.filter (·.lhs == hidden) = groupRules hidden quantifier flat → '#' ∈ hidden.toList →
        Lowers description rules (.group quantifier body) (.nonterminal hidden)

/-- Flat alternatives take the place of the productions of a description. -/
structure Lowering (description : Description) (alternatives : List FlatAlternative) : Prop where
  disjoint : ∀ {production : Production}, production ∈ description.productions →
    production.name ∉ description.tokenNames
  /-- The alternatives of a production and its flat ones, in the same order. -/
  lowers : ∀ {production : Production}, production ∈ description.productions → List.Forall₂ (fun alternative rule =>
        List.Forall₂ (Lowers description (alternatives.map (·.toFlatRule))) alternative.symbols rule.symbols)
      production.alternatives ((alternatives.map (·.toFlatRule)).filter (·.lhs == production.name))

variable {alts : List FlatAlternative} {hidden : String} {quantifier : Quantifier} {flat : List FlatSymbol}
  {symbols : List Symbol}

private theorem derives_nonterminal_iff {name : String} : Derives alts [.nonterminal name] kinds ↔
      ∃ rule ∈ (alts.map (·.toFlatRule)).filter (·.lhs == name), Derives alts rule.symbols kinds := by
  rw [derives_singleton_iff]
  constructor
  · rintro ⟨alt, hm, rfl, hs⟩
    exact ⟨alt.toFlatRule, by simpa using ⟨alt, hm, rfl⟩, hs⟩
  · rintro ⟨rule, hr, hs⟩
    rw [mem_filter, mem_map, beq_iff_eq] at hr
    obtain ⟨⟨alt, hm, rfl⟩, hl⟩ := hr
    exact ⟨alt, hm, hl, hs⟩

private theorem derives_hidden_of_rounds
    (hr : (alts.map (·.toFlatRule)).filter (·.lhs == hidden) = groupRules hidden quantifier flat)
    {rounds : Nat} (ha : quantifier.Allows rounds)
    (h : Derives alts (List.replicate rounds flat).flatten kinds) :
    Derives alts [.nonterminal hidden] kinds := by
  have hrl : ∀ symbols, { lhs := hidden, symbols } ∈ groupRules hidden quantifier flat →
      ∀ {kinds : List String}, Derives alts symbols kinds → Derives alts [.nonterminal hidden] kinds :=
    fun symbols hm _ hs => derives_nonterminal_iff.2 ⟨_, hr ▸ hm, hs⟩
  induction rounds generalizing kinds with
  | zero =>
    cases quantifier with
    | optional | star => exact hrl [] (by simp [groupRules]) h
    | plus => exact absurd ha (by simp [Quantifier.Allows])
    | other mark => exact ha.elim
  | succ rounds ih =>
    rw [flatten_replicate_succ, derives_append_iff] at h
    obtain ⟨first, rest, rfl, hf, hrs⟩ := h
    have ho : rounds = 0 → first = [] := by
      rintro rfl
      cases hf
      rfl
    cases quantifier with
    | optional =>
      rw [ho (Nat.le_zero.1 (Nat.le_of_succ_le_succ ha))]
      exact hrl flat (by simp [groupRules]) hrs
    | star => exact hrl (.nonterminal hidden :: flat) (by simp [groupRules]) ((ih trivial hf).append hrs)
    | plus =>
      rcases Nat.eq_zero_or_pos rounds with hrn | hrn
      · rw [ho hrn]
        exact hrl flat (by simp [groupRules]) hrs
      · exact hrl (.nonterminal hidden :: flat) (by simp [groupRules]) ((ih hrn hf).append hrs)
    | other mark => exact ha.elim

variable {α β : Type} {relation : α → β → Prop} {first : List α} {second : List β}

private theorem forall₂_replicate_flatten (h : List.Forall₂ relation first second) (rounds : Nat) :
    List.Forall₂ relation (List.replicate rounds first).flatten (List.replicate rounds second).flatten := by
  induction rounds with
  | zero => exact .nil
  | succ rounds ih =>
    rw [flatten_replicate_succ, flatten_replicate_succ]
    exact rel_append ih h

private theorem exists_of_forall₂_left
    (h : List.Forall₂ relation first second) {a : α} (ha : a ∈ first) : ∃ b ∈ second, relation a b := by
  induction h with
  | nil => cases ha
  | cons hab _ ih =>
    rcases mem_cons.1 ha with rfl | ha
    · exact ⟨_, mem_cons_self, hab⟩
    · obtain ⟨b, hb, hr⟩ := ih ha
      exact ⟨b, mem_cons_of_mem _ hb, hr⟩

theorem exists_of_forall₂_right
    (h : List.Forall₂ relation first second) {b : β} (hb : b ∈ second) : ∃ a ∈ first, relation a b :=
  exists_of_forall₂_left h.flip hb

namespace Lowering

private theorem derives_of_reads (h : Lowering desc alts) (hr : Reads desc symbols kinds)
    (hl : List.Forall₂ (Lowers desc (alts.map (·.toFlatRule))) symbols flat) :
    Derives alts flat kinds := by
  induction hr generalizing flat with
  | nil =>
    cases hl
    exact .nil
  | literal _ ih =>
    cases hl with
    | cons hf hrs =>
      cases hf
      exact .terminal (ih hrs)
  | token hm _ ih =>
    cases hl with
    | cons hf hrs =>
      cases hf with
      | token => exact .terminal (ih hrs)
      | production _ hn => exact absurd hm hn
  | production hp ha _ _ ihsub ihrest =>
    cases hl with
    | cons hf hrs =>
      cases hf with
      | token ht => exact absurd ht (h.disjoint hp)
      | production =>
        obtain ⟨rule, hrl, hs⟩ := exists_of_forall₂_left (h.lowers hp) ha
        exact (derives_nonterminal_iff.2 ⟨rule, hrl, ihsub hs⟩).append (ihrest hrs)
  | group rounds hall _ _ ihsub ihrest =>
    cases hl with
    | cons hf hrs =>
      cases hf with
      | group _ hb hru =>
        have hrn := ihsub (forall₂_replicate_flatten hb rounds)
        exact (derives_hidden_of_rounds hru hall hrn).append (ihrest hrs)

private theorem reads_group_of_mem {rules : List FlatRule} {body : List Symbol} {rule : FlatRule}
    (hm : rule ∈ groupRules hidden quantifier flat) (hon : quantifier.Allows 1)
    (hb : List.Forall₂ (Lowers desc rules) body flat)
    (hg : Lowers desc rules (.group quantifier body) (.nonterminal hidden))
    (h : ∀ {symbols : List Symbol}, List.Forall₂ (Lowers desc rules) symbols rule.symbols →
      Reads desc symbols kinds) : Reads desc [.group quantifier body] kinds := by
  rw [reads_group_iff]
  have ho (hr : rule.symbols = flat) :
      ∃ rounds, quantifier.Allows rounds ∧ Reads desc (List.replicate rounds body).flatten kinds :=
    ⟨1, hon, by simpa using h (hr ▸ hb)⟩
  have hn (hr : rule.symbols = []) (hz : quantifier.Allows 0) :
      ∃ rounds, quantifier.Allows rounds ∧ Reads desc (List.replicate rounds body).flatten kinds :=
    ⟨0, hz, h (hr ▸ .nil)⟩
  have ha (hr : rule.symbols = .nonterminal hidden :: flat)
      (hnx : ∀ {rounds : Nat}, quantifier.Allows rounds → quantifier.Allows (rounds + 1)) :
      ∃ rounds, quantifier.Allows rounds ∧ Reads desc (List.replicate rounds body).flatten kinds := by
    have hrd : Reads desc (.group quantifier body :: body) kinds := h (hr ▸ .cons hg hb)
    cases hrd with
    | group rounds hall hs hrs =>
      exact ⟨rounds + 1, hnx hall, flatten_replicate_succ rounds body ▸ hs.append hrs⟩
  cases quantifier with
  | optional =>
    rcases mem_pair.1 hm with rfl | rfl
    · exact ho rfl
    · exact hn rfl (Nat.zero_le 1)
  | star =>
    rcases mem_pair.1 hm with rfl | rfl
    · exact hn rfl trivial
    · exact ha rfl fun _ => trivial
  | plus =>
    rcases mem_pair.1 hm with rfl | rfl
    · exact ho rfl
    · exact ha rfl fun _ => Nat.le_add_left ..
  | other mark => exact hon.elim

/-- Flat symbols derive no more than the symbols in whose place they stand are read as. -/
private theorem reads_of_derives (h : Lowering desc alts) (hd : Derives alts flat kinds)
    (hl : List.Forall₂ (Lowers desc (alts.map (·.toFlatRule))) symbols flat) :
    Reads desc symbols kinds := by
  induction hd generalizing symbols with
  | nil =>
    cases hl
    exact .nil
  | terminal _ ih =>
    cases hl with
    | cons hf hr =>
      cases hf with
      | literal => exact .literal (ih hr)
      | token hm => exact .token hm (ih hr)
  | @nonterminal alt _ _ _ hm _ _ ihsub ihrest =>
    cases hl with
    | @cons symbol _ symbols _ hf hr =>
      have hrl : alt.toFlatRule ∈
          (alts.map (·.toFlatRule)).filter (·.lhs == alt.lhs) :=
        mem_filter.2 ⟨mem_map_of_mem hm, beq_self_eq_true _⟩
      cases hf with
      | production hn _ =>
        obtain ⟨production, hp, hn⟩ := mem_map.1 hn
        rw [← hn] at hrl ⊢
        obtain ⟨declared, hdc, hs⟩ := exists_of_forall₂_right (h.lowers hp) hrl
        exact .production hp hdc (ihsub hs) (ihrest hr)
      | group ho hb hru hh =>
        rw [hru] at hrl
        exact (reads_group_of_mem hrl ho hb (.group ho hb hru hh) ihsub).append (ihrest hr)

theorem derives_iff_reads (h : Lowering desc alts)
    (hl : List.Forall₂ (Lowers desc (alts.map (·.toFlatRule))) symbols flat) :
    Derives alts flat kinds ↔ Reads desc symbols kinds :=
  ⟨fun hd => h.reads_of_derives hd hl, fun hr => h.derives_of_reads hr hl⟩

end Lowering

end Grammar

end TreeLint
