import TreeLint.Match.Basic

/-!
# Bindings

* `get?_put`, `get?_add_of_not_mem`, `get?_add_congr`: what a name stands for after names were bound;
* `add_assoc`: bindings may be added one after the other or all at once;
* `get?_only`: what is left if only some names are kept.
-/

namespace TreeLint

open List

theorem nodup_eraseDups (names : List String) : names.eraseDups.Nodup := by
  match names with
  | [] => exact nodup_nil
  | name :: names =>
    rw [eraseDups_cons, nodup_cons]
    exact ⟨by simp [mem_eraseDups], nodup_eraseDups _⟩
termination_by names.length
decreasing_by exact Nat.lt_succ_of_le (length_filter_le _ _)

namespace Predicate

theorem mem_nameSet {name : String} {names : List String} : name ∈ nameSet names ↔ name ∈ names := by
  rw [nameSet, mem_mergeSort, mem_eraseDups]

end Predicate

namespace Bindings

variable {name other : String} {binding : Binding} {bindings others : Bindings}

def names (bindings : Bindings) : List String :=
  bindings.map (·.1)

theorem has_iff : bindings.has name ↔ name ∈ bindings.names := by
  unfold has get? names
  induction bindings with
  | nil => simp
  | cons entry bindings ih =>
    obtain ⟨known, value⟩ := entry
    rw [lookup_cons, map_cons, mem_cons]
    by_cases hn : name = known
    · simp [hn]
    · rw [beq_false_of_ne hn]
      simp only [hn, false_or]
      exact ih

/-! ## Putting -/

private theorem lookup_filter_ne (h : name ≠ other) :
    (bindings.filter (·.1 != other)).lookup name = bindings.lookup name := by
  induction bindings with
  | nil => rfl
  | cons entry bindings ih =>
    obtain ⟨known, value⟩ := entry
    by_cases hk : known = other
    · have hne : (name == known) = false := beq_false_of_ne (hk ▸ h)
      rw [filter_cons_of_neg (by simp [hk]), ih, lookup_cons, hne]
    · rw [filter_cons_of_pos (by simp [hk]), lookup_cons, lookup_cons, ih]

/-- A name keeps the binding that it was given last. -/
theorem get?_put :
    (bindings.put other binding).get? name = if name = other then some binding else bindings.get? name := by
  unfold get? put
  rw [lookup_append]
  by_cases h : name = other
  · have hn : (bindings.filter (·.1 != other)).lookup name = none := by
      rw [lookup_eq_none_iff]
      intro entry he
      have hne : entry.1 ≠ other := by simpa using (mem_filter.1 he).2
      exact bne_iff_ne.2 fun heq => hne (heq.symm.trans h)
    rw [if_pos h, hn, h]
    simp
  · rw [if_neg h, lookup_filter_ne h, lookup_cons, beq_false_of_ne h]
    simp

theorem mem_names_put : name ∈ (bindings.put other binding).names ↔ name ∈ bindings.names ∨ name = other := by
  rw [← has_iff, ← has_iff, has, has, get?_put]
  split <;> simp [*]

/-! ## Adding -/

theorem add_nil : bindings.add [] = bindings :=
  rfl

theorem add_cons : bindings.add ((name, binding) :: others) = (bindings.put name binding).add others :=
  rfl

theorem add_append (more : Bindings) : bindings.add (others ++ more) = (bindings.add others).add more :=
  foldl_append

/-- Adding bindings changes no name that they do not bind. -/
theorem get?_add_of_not_mem (h : name ∉ others.names) : (bindings.add others).get? name = bindings.get? name := by
  induction others generalizing bindings with
  | nil => rfl
  | cons entry others ih =>
    obtain ⟨known, value⟩ := entry
    obtain ⟨hne, hr⟩ : name ≠ known ∧ name ∉ names others := by simpa [names] using h
    rw [add_cons, ih hr, get?_put, if_neg hne]

theorem get?_add_congr {same : Bindings} (h : bindings.get? name = same.get? name) :
    (bindings.add others).get? name = (same.add others).get? name := by
  induction others generalizing bindings same with
  | nil => exact h
  | cons entry others ih =>
    obtain ⟨known, value⟩ := entry
    rw [add_cons, add_cons]
    refine ih ?_
    rw [get?_put, get?_put, h]

theorem mem_names_add : name ∈ (bindings.add others).names ↔ name ∈ bindings.names ∨ name ∈ others.names := by
  induction others generalizing bindings with
  | nil => simp [add_nil, names]
  | cons entry others ih =>
    obtain ⟨known, binding⟩ := entry
    rw [add_cons, ih, mem_names_put, or_assoc]
    exact or_congr_right mem_cons.symm

private theorem filter_add (name : String) : (bindings.add others).filter (·.1 != name) =
      Bindings.add (bindings.filter (·.1 != name)) (others.filter (·.1 != name)) := by
  induction others generalizing bindings with
  | nil => rfl
  | cons entry others ih =>
    obtain ⟨known, value⟩ := entry
    rw [add_cons, ih, put, filter_append, filter_filter]
    by_cases hk : known = name
    · rw [filter_cons_of_neg (by simp [hk]), filter_cons_of_neg (by simp [hk]), filter_nil, append_nil, hk]
      simp
    · rw [filter_cons_of_pos (by simp [hk]), filter_cons_of_pos (by simp [hk]), filter_nil,
        add_cons, put, filter_filter]
      congr 3
      funext entry
      exact Bool.and_comm _ _

theorem add_put (name : String) (binding : Binding) :
    bindings.add (others.put name binding) = (bindings.add others).put name binding := by
  have hf : (others.filter (·.1 != name)).filter (·.1 != name) = others.filter (·.1 != name) := by
    rw [filter_filter]
    simp
  rw [put, add_append, add_cons, add_nil, put, filter_add, hf, ← filter_add]
  rfl

/-- It does not matter in which groups bindings are added. -/
theorem add_assoc (first second : Bindings) : bindings.add (first.add second) = (bindings.add first).add second := by
  induction second generalizing first with
  | nil => rfl
  | cons entry second ih =>
    obtain ⟨known, value⟩ := entry
    rw [add_cons, ih, add_put, add_cons]

/-! ## Keeping some names -/

theorem get?_only (names : List String) (name : String) :
    (bindings.only names).get? name = if name ∈ names then bindings.get? name else none := by
  unfold only
  induction names with
  | nil => rfl
  | cons first names ih =>
    rw [filterMap_cons]
    cases hf : bindings.get? first with
    | none =>
      simp only [Option.map_none]
      rw [ih]
      by_cases hn : name = first
      · subst hn
        simp [hf]
      · simp [hn]
    | some binding =>
      simp only [Option.map_some]
      unfold get? at ih ⊢
      rw [lookup_cons]
      by_cases hn : name = first
      · subst hn
        simp only [beq_self_eq_true, mem_cons_self, if_true]
        exact hf.symm
      · rw [beq_false_of_ne hn]
        simp only [ih, mem_cons, hn, false_or]

end Bindings

namespace Match

variable {bindings : Bindings} {reads : Unit → List String} {pending : List Pending} {name : String}

/-- The bindings that matter are those of the names that are read, here or by a pending guard. -/
theorem get?_relevant (h : name ∈ reads () ∨ name ∈ readsOf pending) :
    (relevant bindings reads pending).get? name = bindings.get? name := by
  unfold relevant
  split
  next he => rw [List.isEmpty_iff.1 he]
  · rw [Bindings.get?_only, if_pos (Predicate.mem_nameSet.2 (mem_append.2 h))]

theorem mem_names_of_mem_names_relevant (h : name ∈ (relevant bindings reads pending).names) :
    name ∈ bindings.names := by
  unfold relevant at h
  split at h
  · cases h
  · rw [← Bindings.has_iff, Bindings.has, Bindings.get?_only] at h
    split at h
    · exact Bindings.has_iff.1 h
    · cases h

end Match

end TreeLint
