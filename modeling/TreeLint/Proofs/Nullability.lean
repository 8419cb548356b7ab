import Mathlib.Data.List.Perm.Subperm
import TreeLint.Proofs.Derivability

/-!
# The table of nullable nonterminals

The sweeps over the alternatives find exactly the nonterminals from which nothing can be derived, and every entry of the
table rests on earlier ones.

* `NullTable.Grounded`: every entry names an alternative whose symbols are all in the table before it;
* `NullTable.Saturated`: no alternative can add an entry;
* `NullTable.isSome_lookup_ofAlternatives_iff`: a nonterminal is in the table if and only if it derives nothing.
-/

namespace TreeLint

open List

namespace Grammar

namespace NullTable

variable {alts : List FlatAlternative} {table : NullTable} {symbols : List FlatSymbol} {name : String}

/-- A table in which every entry rests on those before it, and each nonterminal has one entry. -/
inductive Grounded (alternatives : List FlatAlternative) : NullTable → Prop
  | nil : Grounded alternatives []
  | snoc {table : NullTable} {alternative : FlatAlternative} : Grounded alternatives table →
      alternative ∈ alternatives → table.lookup alternative.lhs = none → table.covers alternative.symbols →
        Grounded alternatives (table ++ [(alternative.lhs, alternative.id)])

def Saturated (alternatives : List FlatAlternative) (table : NullTable) : Prop :=
  ∀ alternative ∈ alternatives, table.covers alternative.symbols → (table.lookup alternative.lhs).isSome

theorem lookup_snoc (table : NullTable) (name : String) (entry : String × Nat) : (table ++ [entry]).lookup name =
      (table.lookup name).or (if name == entry.1 then some entry.2 else none) := by
  obtain ⟨key, id⟩ := entry
  rw [lookup_append, lookup_cons, lookup_nil]
  cases name == key <;> rfl

private theorem covers_nonterminal :
    table.covers (.nonterminal name :: symbols) ↔ (table.lookup name).isSome ∧ table.covers symbols := by
  simp [covers]

private theorem not_covers_terminal {kind : String} : ¬ table.covers (.terminal kind :: symbols) := by
  simp [covers]

theorem exists_of_covers (h : table.covers symbols) {symbol : FlatSymbol} (hs : symbol ∈ symbols) :
    ∃ name, symbol = .nonterminal name ∧ (table.lookup name).isSome := by
  rw [covers, all_eq_true] at h
  have hk := h symbol hs
  cases symbol with
  | terminal kind => cases hk
  | nonterminal name => exact ⟨name, rfl, hk⟩

theorem covers_append (more : NullTable) (h : table.covers symbols) : (table ++ more).covers symbols := by
  induction symbols with
  | nil => rfl
  | cons symbol symbols ih =>
    cases symbol with
    | terminal kind => exact absurd h not_covers_terminal
    | nonterminal name =>
      rw [covers_nonterminal] at h ⊢
      refine ⟨?_, ih h.2⟩
      rw [lookup_append, Option.isSome_or, h.1, Bool.true_or]

/-! ## Soundness -/

private theorem derives_nil_of_covers (ht : ∀ name, (table.lookup name).isSome → Derives alts [.nonterminal name] [])
    (h : table.covers symbols) : Derives alts symbols [] := by
  induction symbols with
  | nil => exact .nil
  | cons symbol symbols ih =>
    cases symbol with
    | terminal kind => exact absurd h not_covers_terminal
    | nonterminal name =>
      rw [covers_nonterminal] at h
      exact (ht name h.1).append (ih h.2)

private theorem Grounded.derives_nil (h : Grounded alts table) (hn : (table.lookup name).isSome) :
    Derives alts [.nonterminal name] [] := by
  induction h generalizing name with
  | nil => simp at hn
  | @snoc table alt _ hm _ hc ih =>
    rw [lookup_snoc, Option.isSome_or, Bool.or_eq_true] at hn
    rcases hn with hn | hn
    · exact ih hn
    · have hl : name = alt.lhs := by
        by_contra hne
        simp [hne] at hn
      rw [hl, derives_singleton_iff]
      exact ⟨alt, hm, rfl, derives_nil_of_covers (fun _ => ih) hc⟩

/-! ## Completeness -/

private theorem Saturated.covers_of_derives (h : Saturated alts table) {kinds : List String}
    (hd : Derives alts symbols kinds) (hk : kinds = []) : table.covers symbols := by
  induction hd with
  | nil => rfl
  | terminal => simp at hk
  | nonterminal hm _ _ ihsub ihrest =>
    rw [append_eq_nil_iff] at hk
    rw [covers_nonterminal]
    exact ⟨h _ hm (ihsub hk.1), ihrest hk.2⟩

/-! ## The sweeps -/

/-- A visit adds an alternative that the table covers, unless its name is there already. -/
theorem visit_eq_or (table : NullTable) (alt : FlatAlternative) : (table.visit alt = table ∧
        (table.covers alt.symbols → (table.lookup alt.lhs).isSome)) ∨
      (table.visit alt = table ++ [(alt.lhs, alt.id)] ∧
        table.lookup alt.lhs = none ∧ table.covers alt.symbols) := by
  unfold visit
  split
  · exact .inl ⟨rfl, fun _ => by assumption⟩
  · split
    · exact .inr ⟨rfl, Option.not_isSome_iff_eq_none.1 (by assumption), by assumption⟩
    · exact .inl ⟨rfl, fun h => absurd h (by assumption)⟩

theorem Grounded.visit (h : Grounded alts table) {alt : FlatAlternative}
    (hm : alt ∈ alts) : Grounded alts (table.visit alt) := by
  rcases visit_eq_or table alt with ⟨heq, -⟩ | ⟨heq, hl, hc⟩
  · rwa [heq]
  · rw [heq]
    exact h.snoc hm hl hc

theorem Grounded.visitAll (h : Grounded alts table) {visited : List FlatAlternative}
    (hs : visited ⊆ alts) : Grounded alts (visited.foldl NullTable.visit table) := by
  induction visited generalizing table with
  | nil => exact h
  | cons alt visited ih =>
    rw [cons_subset] at hs
    exact ih (h.visit hs.1) hs.2

private theorem length_le_length_visit (table : NullTable) (alt : FlatAlternative) :
    table.length ≤ (table.visit alt).length := by
  rcases visit_eq_or table alt with ⟨heq, -⟩ | ⟨heq, -⟩ <;> simp [heq]

private theorem length_le_length_visitAll (table : NullTable) (visited : List FlatAlternative) :
    table.length ≤ (visited.foldl NullTable.visit table).length := by
  induction visited generalizing table with
  | nil => exact Nat.le_refl _
  | cons alt visited ih => exact Nat.le_trans (length_le_length_visit table alt) (ih _)

/-- A sweep that adds nothing has found nothing to add. -/
private theorem saturated_of_length_visitAll {visited : List FlatAlternative}
    (h : (visited.foldl NullTable.visit table).length = table.length) : Saturated visited table := by
  induction visited with
  | nil => simp [Saturated]
  | cons alt visited ih =>
    rw [foldl_cons] at h
    rcases visit_eq_or table alt with ⟨heq, hf⟩ | ⟨heq, -⟩
    · rw [heq] at h
      intro other ho
      rcases mem_cons.1 ho with rfl | ho
      · exact hf
      · exact ih h other ho
    · have := length_le_length_visitAll (table.visit alt) visited
      simp only [heq, length_append, length_singleton] at this h
      omega

private theorem Grounded.keys (h : Grounded alts table) :
    (table.map (·.1)).Nodup ∧ table.map (·.1) ⊆ alts.map (·.lhs) := by
  induction h with
  | nil => simp
  | @snoc table alt _ hm hl _ ih =>
    have hn : alt.lhs ∉ table.map (·.1) := by
      rw [lookup_eq_none_iff] at hl
      simp only [mem_map, not_exists, not_and]
      rintro entry he heq
      have := hl entry he
      simp [heq] at this
    rw [map_append, map_singleton]
    refine ⟨nodup_append.2 ⟨ih.1, by simp, ?_⟩, append_subset.2 ⟨ih.2, ?_⟩⟩
    · rintro key hk other ho rfl
      simp only [mem_singleton] at ho
      exact hn (ho ▸ hk)
    · simpa using ⟨alt, hm, rfl⟩

/-- There are no more entries than alternatives. -/
theorem Grounded.length_le (h : Grounded alts table) : table.length ≤ alts.length := by
  have := (subperm_of_subset h.keys.1 h.keys.2).length_le
  simpa using this

private theorem grounded_saturated_sweep {rounds : Nat} (h : Grounded alts table)
    (hr : alts.length < table.length + rounds) :
    Grounded alts (sweep alts rounds table) ∧
      Saturated alts (sweep alts rounds table) := by
  induction rounds generalizing table with
  | zero =>
    have := h.length_le
    omega
  | succ rounds ih =>
    have hn := h.visitAll (List.Subset.refl alts)
    have hle := length_le_length_visitAll table alts
    unfold sweep
    simp only [beq_iff_eq]
    split
    · exact ⟨h, saturated_of_length_visitAll (by assumption)⟩
    · exact ih hn (by omega)

theorem grounded_ofAlternatives (alts : List FlatAlternative) :
    Grounded alts (ofAlternatives alts) :=
  (grounded_saturated_sweep .nil (by simp)).1

private theorem saturated_ofAlternatives (alts : List FlatAlternative) :
    Saturated alts (ofAlternatives alts) :=
  (grounded_saturated_sweep .nil (by simp)).2

/-- The table holds the names that derive the empty word. -/
theorem isSome_lookup_ofAlternatives_iff :
    ((ofAlternatives alts).lookup name).isSome ↔ Derives alts [.nonterminal name] [] := by
  constructor
  · exact (grounded_ofAlternatives alts).derives_nil
  · intro h
    have := (saturated_ofAlternatives alts).covers_of_derives h rfl
    exact (covers_nonterminal.1 this).1

end NullTable

end Grammar

end TreeLint
