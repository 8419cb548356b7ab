import Mathlib.Data.String.Basic
import TreeLint.Diagnostic
import TreeLint.Proofs.ListedProblems

/-!
# The order of diagnostics

Diagnostics are sorted by file, start and rule, and those that agree in all three keep their order. So the sorted list
is known once the diagnostics of each key are known in their order, wherever they stand among the others.

* `Diagnostic.sort_congr`: lists that agree on every key are sorted into one list;
* `Diagnostic.filter_sort`: picking some diagnostics and sorting go together;
* `Diagnostic.filter_key_flatMap_perm`: where each piece of a list has keys of its own, the order of the pieces does not
  matter.
-/

namespace TreeLint

open List

namespace Diagnostic

variable {first second third : Diagnostic} {diagnostics others : List Diagnostic}

/-- What diagnostics are sorted by: file, start and rule. -/
def key (diagnostic : Diagnostic) : String × Int × String :=
  (diagnostic.span.file, diagnostic.span.start, diagnostic.rule)

/-! ## The order -/

/-- The key, in the order in which its parts count. -/
def place (diagnostic : Diagnostic) : String ×ₗ Int ×ₗ String :=
  toLex (diagnostic.span.file, toLex (diagnostic.span.start, diagnostic.rule))

private theorem place_eq_iff : first.place = second.place ↔ first.key = second.key := by
  simp [place, key]

theorem precedes_iff_le : first.precedes second ↔ first.place ≤ second.place := by
  simp [precedes, place, Prod.Lex.toLex_le_toLex]

private theorem precedes_of_key_eq (h : first.key = second.key) : first.precedes second :=
  precedes_iff_le.2 (place_eq_iff.2 h).le

theorem precedes_total (first second : Diagnostic) : first.precedes second || second.precedes first := by
  rw [Bool.or_eq_true, precedes_iff_le, precedes_iff_le]
  exact le_total _ _

theorem precedes_trans (h : first.precedes second) (h' : second.precedes third) : first.precedes third :=
  precedes_iff_le.2 ((precedes_iff_le.1 h).trans (precedes_iff_le.1 h'))

private theorem key_eq_of_precedes (h : first.precedes second) (h' : second.precedes first) : first.key = second.key :=
  place_eq_iff.1 (le_antisymm (precedes_iff_le.1 h) (precedes_iff_le.1 h'))

/-! ## Sorting -/

theorem pairwise_sort (diagnostics : List Diagnostic) :
    (sort diagnostics).Pairwise fun first second => first.precedes second :=
  @pairwise_mergeSort _ precedes (fun _ _ _ => precedes_trans) precedes_total diagnostics

theorem sort_of_pairwise (h : diagnostics.Pairwise fun first second => first.precedes second) :
    sort diagnostics = diagnostics :=
  mergeSort_of_pairwise h

theorem mem_sort : first ∈ sort diagnostics ↔ first ∈ diagnostics :=
  mem_mergeSort

private theorem filter_key_sort (key : String × Int × String) (diagnostics : List Diagnostic) :
    (sort diagnostics).filter (·.key == key) = diagnostics.filter (·.key == key) := by
  apply filter_mergeSort precedes (fun _ _ _ => precedes_trans) precedes_total
  rw [pairwise_filter]
  apply pairwise_of_forall
  intro first second hf hs
  exact precedes_of_key_eq ((eq_of_beq hf).trans (eq_of_beq hs).symm)

/-- Sorted lists that agree on every key are the same. -/
private theorem eq_of_filter_key (hs : diagnostics.Pairwise fun first second => first.precedes second)
    (hs' : others.Pairwise fun first second => first.precedes second)
    (h : ∀ key, diagnostics.filter (·.key == key) = others.filter (·.key == key)) : diagnostics = others := by
  induction diagnostics generalizing others with
  | nil =>
    refine (eq_nil_iff_forall_not_mem.mpr fun other ho => ?_).symm
    have hk : other ∈ others.filter (·.key == other.key) :=
      mem_filter.mpr ⟨ho, beq_self_eq_true other.key⟩
    rw [← h] at hk
    cases hk
  | cons first rest ih =>
    have hm {other : Diagnostic} : other ∈ first :: rest ↔ other ∈ others := by
      have := congrArg (other ∈ ·) (h other.key)
      simpa only [mem_filter, beq_self_eq_true, and_true, eq_iff_iff] using this
    cases others with
    | nil => exact absurd (hm.mp mem_cons_self) not_mem_nil
    | cons second rest' =>
      rw [pairwise_cons] at hs hs'
      -- each head is in the other list, so neither comes later
      have hp : first.precedes second := by
        rcases mem_cons.mp (hm.mpr mem_cons_self) with rfl | hsc
        · exact precedes_of_key_eq rfl
        · exact hs.1 second hsc
      have hp' : second.precedes first := by
        rcases mem_cons.mp (hm.mp mem_cons_self) with rfl | hf
        · exact precedes_of_key_eq rfl
        · exact hs'.1 first hf
      have hky := key_eq_of_precedes hp hp'
      have hh := h first.key
      simp only [filter_cons, hky, beq_self_eq_true, if_true, List.cons.injEq] at hh
      obtain rfl := hh.1
      refine congrArg (first :: ·) (ih hs.2 hs'.2 fun key => ?_)
      have hr := h key
      simp only [filter_cons] at hr
      split at hr
      · exact (List.cons.inj hr).2
      · exact hr

/-- Lists that agree on every key are sorted into one list. -/
theorem sort_congr (h : ∀ key, diagnostics.filter (·.key == key) = others.filter (·.key == key)) :
    sort diagnostics = sort others :=
  eq_of_filter_key (pairwise_sort _) (pairwise_sort _) fun key => by rw [filter_key_sort, filter_key_sort, h]

theorem filter_sort (p : Diagnostic → Bool) (diagnostics : List Diagnostic) :
    (sort diagnostics).filter p = sort (diagnostics.filter p) := by
  refine eq_of_filter_key ((pairwise_sort _).filter p) (pairwise_sort _) fun key => ?_
  rw [filter_key_sort, filter_comm, filter_key_sort, filter_comm]

/-! ## Pieces with keys of their own -/

section Pieces

variable {β : Type} (owner : String × Int × String → String) {name : β → String} {piece : β → List Diagnostic}
  {parts parts' : List β}

private theorem filter_flatMap_of_owner
    (ho : ∀ part ∈ parts, ∀ diag ∈ piece part, owner diag.key = name part)
    (key : String × Int × String) : (parts.flatMap piece).filter (·.key == key) =
      ((parts.filter fun part => name part == owner key).flatMap piece).filter (·.key == key) := by
  rw [filter_flatMap, filter_flatMap]
  induction parts with
  | nil => rfl
  | cons part parts ih =>
    have ih := ih (forall_mem_cons.1 ho).2
    rw [flatMap_cons, ih, filter_cons]
    split
    · rw [flatMap_cons]
    · rename_i hn
      have hnn : (piece part).filter (·.key == key) = [] := by
        rw [filter_eq_nil_iff]
        intro diag hd hk
        have := ho part mem_cons_self diag hd
        rw [eq_of_beq hk] at this
        exact hn (by simp [this])
      rw [hnn, nil_append]

private theorem filter_name_of_nodup (hn : (parts.map name).Nodup) {part : β} (hp : part ∈ parts) :
    (parts.filter fun other => name other == name part) = [part] := by
  induction parts with
  | nil => cases hp
  | cons first parts ih =>
    rw [map_cons, nodup_cons] at hn
    rw [filter_cons]
    rcases mem_cons.mp hp with rfl | hp
    · have hnn : (parts.filter fun other => name other == name part) = [] := by
        rw [filter_eq_nil_iff]
        intro other ho hnm
        exact hn.1 (eq_of_beq hnm ▸ mem_map_of_mem ho)
      rw [beq_self_eq_true, if_pos rfl, hnn]
    · have hne : ¬ (name first == name part) = true := by
        intro hnm
        exact hn.1 (eq_of_beq hnm ▸ mem_map_of_mem hp)
      rw [if_neg hne, ih hn.2 hp]

/-- Where the diagnostics of each piece are told by their keys, the order of the pieces does not matter. -/
theorem filter_key_flatMap_perm (ho : ∀ part ∈ parts, ∀ diag ∈ piece part, owner diag.key = name part)
    (hn : (parts.map name).Nodup) (hp : parts'.Perm parts) (key : String × Int × String) :
    (parts'.flatMap piece).filter (·.key == key) = (parts.flatMap piece).filter (·.key == key) := by
  rw [filter_flatMap_of_owner owner ho, filter_flatMap_of_owner owner fun part hpr => ho part (hp.subset hpr)]
  have hf := hp.filter fun part => name part == owner key
  cases hpa : parts.filter fun part => name part == owner key with
  | nil =>
    rw [hpa] at hf
    rw [hf.eq_nil]
  | cons part rest =>
    have hpr : part ∈ parts ∧ name part == owner key :=
      mem_filter.mp (hpa ▸ mem_cons_self)
    rw [← eq_of_beq hpr.2, filter_name_of_nodup hn hpr.1] at hpa
    rw [← eq_of_beq hpr.2, filter_name_of_nodup hn hpr.1] at hf
    rw [← eq_of_beq hpr.2, perm_singleton.mp hf, hpa]

theorem filter_owner_flatMap (ho : ∀ part ∈ parts, ∀ diag ∈ piece part, owner diag.key = name part)
    (hn : (parts.map name).Nodup) {part : β} (hp : part ∈ parts) :
    (parts.flatMap piece).filter (fun diag => owner diag.key == name part) = piece part := by
  have hpc (other : β) (hot : other ∈ parts) :
      (piece other).filter (fun diag => owner diag.key == name part) =
        if name other == name part then piece other else [] := by
    split
    · rename_i hnm
      rw [filter_eq_self]
      intro diag hd
      rw [ho other hot diag hd, hnm]
    · rename_i hnm
      rw [filter_eq_nil_iff]
      intro diag hd
      rwa [ho other hot diag hd]
  have hs (some : List β) : (some.flatMap fun other => if name other == name part then piece other else []) =
      (some.filter fun other => name other == name part).flatMap piece := by
    induction some with
    | nil => rfl
    | cons other some ih => rw [flatMap_cons, filter_cons, ih]; split <;> rfl
  rw [filter_flatMap, flatMap_congr hpc, hs, filter_name_of_nodup hn hp]
  simp

end Pieces

end Diagnostic

end TreeLint
