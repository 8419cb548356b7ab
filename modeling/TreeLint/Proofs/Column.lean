import TreeLint.Chart.Build
import TreeLint.Proofs.CheckedGrammar

/-!
# Columns of a chart

A column keeps its items in three ways: in the order they were found, with their links, and by the symbol that each
waits for. The three agree (`Column.Coherent`), and adding items keeps them in agreement. What a column holds after
items were added is told by `mem_items_addAll_iff` and `mem_linksOf_addAll_iff`.
-/

namespace TreeLint

open List

namespace Chart

namespace Column

variable {g : Grammar} {column : Column} {item : Item}

/-- The three views of a column agree. -/
structure Coherent (grammar : Grammar) (column : Column) : Prop where
  nodup : column.items.toList.Nodup
  has_iff : ∀ {item : Item}, column.has item ↔ item ∈ column.items
  mem_waiting_iff : ∀ {symbol : Grammar.FlatSymbol} {item : Item},
    item ∈ column.waiting symbol ↔ item ∈ column.items ∧ grammar.next? item = some symbol
  contains_waits_iff : ∀ {symbol : Grammar.FlatSymbol},
    column.waits.contains symbol ↔ ∃ item ∈ column.items, grammar.next? item = some symbol

theorem coherent_empty (g : Grammar) : Coherent g {} where
  nodup := nodup_nil
  has_iff := by simp [has]
  mem_waiting_iff := by simp [waiting]
  contains_waits_iff := by simp

theorem Coherent.mem_of_mem_linksOf (hc : column.Coherent g) {link : Link} (h : link ∈ column.linksOf item) :
    item ∈ column.items := by
  rw [← hc.has_iff, has]
  by_contra hn
  rw [linksOf, Std.HashMap.getD_eq_fallback_of_contains_eq_false (by simpa using hn)] at h
  simp at h

/-- Adding an item either changes the links only, or puts a new item at the end. -/
private theorem add_cases (hc : column.Coherent g) (item : Item) (link : Option Link) :
    (item ∈ column.items ∧ (column.add g item link).items = column.items ∧
        (column.add g item link).waits = column.waits) ∨
      (item ∉ column.items ∧ column.add g item link = column.push g item link.toList) := by
  unfold add
  split
  · rename_i hn
    refine .inr ⟨fun hm => ?_, rfl⟩
    have := hc.has_iff.2 hm
    simp [has, Std.HashMap.contains_eq_isSome_getElem?, hn] at this
  all_goals
    rename_i hs
    have hm : item ∈ column.items :=
      hc.has_iff.1 (by simp [has, Std.HashMap.contains_eq_isSome_getElem?, hs])
  · exact .inl ⟨hm, rfl, rfl⟩
  · split
    · exact .inl ⟨hm, rfl, rfl⟩
    · exact .inl ⟨hm, rfl, rfl⟩

private theorem mem_items_add_iff (hc : column.Coherent g) {other : Item} {link : Option Link} :
    other ∈ (column.add g item link).items ↔ other ∈ column.items ∨ other = item := by
  rcases add_cases hc item link with ⟨hm, hi, -⟩ | ⟨-, heq⟩
  · rw [hi]
    constructor
    · exact .inl
    · rintro (h | rfl) <;> assumption
  · simp [heq, push]

private theorem mem_linksOf_add_iff {other : Item} {link : Option Link} {found : Link} :
    found ∈ (column.add g item link).linksOf other ↔
      found ∈ column.linksOf other ∨ (other = item ∧ link = some found) := by
  unfold add
  split
  · rename_i hn
    simp only [push, linksOf, mem_reverse, Std.HashMap.getD_insert, beq_iff_eq]
    by_cases h : item = other
    · subst h
      simp [Std.HashMap.getD_eq_getD_getElem?, hn]
    · simp [h, Ne.symm h]
  · simp
  · rename_i links link hs
    by_cases hc : links.contains link
    · simp only [hc, if_true, Option.some.injEq]
      constructor
      · exact .inl
      · rintro (h | ⟨rfl, rfl⟩)
        · exact h
        · rw [linksOf, mem_reverse, Std.HashMap.getD_eq_getD_getElem?, hs]
          simpa using hc
    · simp only [hc, Bool.false_eq_true, ↓reduceIte, linksOf, mem_reverse]
      by_cases h : item = other
      · subst h
        rw [Std.HashMap.getD_insert_self, Std.HashMap.getD_eq_getD_getElem?, hs]
        simp [or_comm, eq_comm]
      · simp [Std.HashMap.getD_insert, h, Ne.symm h]

private theorem waiting_push (item : Item) (links : List Link) (symbol : Grammar.FlatSymbol) :
    (column.push g item links).waiting symbol =
      column.waiting symbol ++ if g.next? item = some symbol then [item] else [] := by
  cases hn : g.next? item with
  | none => simp [waiting, push, hn]
  | some awaited => by_cases h : awaited = symbol <;> simp [waiting, push, hn, Std.HashMap.getD_insert, h]

theorem Coherent.push (hc : column.Coherent g) (hnw : item ∉ column.items) (links : List Link) :
    (column.push g item links).Coherent g where
  nodup := by
    rw [Column.push, Array.toList_push, nodup_append]
    refine ⟨hc.nodup, by simp, ?_⟩
    rintro other ho _ hn rfl
    rw [mem_singleton] at hn
    exact hnw (hn ▸ Array.mem_toList_iff.1 ho)
  has_iff := by
    intro other
    simp only [has, Column.push, Std.HashMap.contains_insert, Bool.or_eq_true, beq_iff_eq, Array.mem_push]
    rw [or_comm, @eq_comm _ item]
    exact or_congr_left hc.has_iff
  mem_waiting_iff := by
    intro symbol other
    rw [waiting_push, mem_append, hc.mem_waiting_iff, Column.push, Array.mem_push, or_and_right]
    refine or_congr_right ?_
    split
    next hn => exact ⟨fun h => ⟨mem_singleton.1 h, mem_singleton.1 h ▸ hn⟩, fun h => mem_singleton.2 h.1⟩
    next hn => exact ⟨fun h => absurd h not_mem_nil, fun h => absurd (h.1 ▸ h.2) hn⟩
  contains_waits_iff := by
    intro symbol
    have hold := @Coherent.contains_waits_iff _ _ hc symbol
    cases hn : g.next? item with
    | none => simp [Column.push, hn, hold, or_and_right, exists_or]
    | some awaited =>
      simp only [Column.push, hn, Std.HashMap.contains_insert, Bool.or_eq_true, beq_iff_eq, hold, Array.mem_push]
      constructor
      · rintro (rfl | ⟨other, hm, hs⟩)
        · exact ⟨item, .inr rfl, hn⟩
        · exact ⟨other, .inl hm, hs⟩
      · rintro ⟨other, hm | rfl, hs⟩
        · exact .inr ⟨other, hm, hs⟩
        · exact .inl (Option.some.inj (hn.symm.trans hs))

theorem Coherent.add (hc : column.Coherent g) (item : Item) (link : Option Link) :
    (column.add g item link).Coherent g := by
  rcases add_cases hc item link with ⟨hm, hi, hw⟩ | ⟨hnw, heq⟩
  · refine ⟨?_, ?_, ?_, ?_⟩
    · rw [hi]
      exact hc.nodup
    · intro other
      rw [hi, ← hc.has_iff]
      unfold Column.add has
      split
      · rename_i hn
        have := hc.has_iff.2 hm
        simp [has, Std.HashMap.contains_eq_isSome_getElem?, hn] at this
      · rfl
      · split
        · rfl
        · rename_i hs _
          rw [Std.HashMap.contains_insert, Bool.or_eq_true, beq_iff_eq, or_iff_right_iff_imp]
          rintro rfl
          exact hc.has_iff.2 hm
    · intro symbol other
      simp only [waiting, hw, hi]
      exact hc.mem_waiting_iff
    · intro symbol
      rw [hw, hi]
      exact hc.contains_waits_iff
  · rw [heq]
    exact hc.push hnw _

/-! ## Several items -/

variable {steps : List (Item × Option Link)}

private theorem addAll_cons (step : Item × Option Link) (steps : List (Item × Option Link)) :
    column.addAll g (step :: steps) = (column.add g step.1 step.2).addAll g steps :=
  rfl

/-- Adding steps keeps the three views in agreement. -/
theorem Coherent.addAll (hc : column.Coherent g) (steps : List (Item × Option Link)) :
    (column.addAll g steps).Coherent g := by
  induction steps generalizing column with
  | nil => exact hc
  | cons step steps ih => exact ih (hc.add step.1 step.2)

/-- Adding steps adds their items and nothing else. -/
theorem mem_items_addAll_iff (hc : column.Coherent g) :
    item ∈ (column.addAll g steps).items ↔ item ∈ column.items ∨ ∃ link, (item, link) ∈ steps := by
  induction steps generalizing column with
  | nil => simp [addAll]
  | cons step steps ih =>
    obtain ⟨first, link⟩ := step
    rw [addAll_cons, ih (hc.add first link), mem_items_add_iff hc]
    simp only [mem_cons, Prod.mk.injEq, or_assoc, exists_or]
    simp

/-- An item gets the links of its own steps and no others. -/
theorem mem_linksOf_addAll_iff {link : Link} : link ∈ (column.addAll g steps).linksOf item ↔
      link ∈ column.linksOf item ∨ (item, some link) ∈ steps := by
  induction steps generalizing column with
  | nil => simp [addAll]
  | cons step steps ih =>
    obtain ⟨first, found⟩ := step
    rw [addAll_cons, ih, mem_linksOf_add_iff, mem_cons, Prod.mk.injEq, or_assoc,
      eq_comm (a := found)]

/-- Items keep their places when others are added. -/
theorem getElem?_items_addAll (hc : column.Coherent g) {i : Nat} (h : column.items[i]? = some item) :
    (column.addAll g steps).items[i]? = some item := by
  induction steps generalizing column with
  | nil => exact h
  | cons step steps ih =>
    rw [addAll_cons]
    apply ih (hc.add step.1 step.2)
    rcases add_cases hc step.1 step.2 with ⟨-, hit, -⟩ | ⟨-, heq⟩
    · rwa [hit]
    · obtain ⟨hi, rfl⟩ := Array.getElem?_eq_some_iff.1 h
      rw [heq, Column.push, Array.getElem?_push_lt hi]

end Column

end Chart

end TreeLint
