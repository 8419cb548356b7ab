import Mathlib.Algebra.Ring.Nat
import TreeLint.Proofs.Column

/-!
# Closed columns

Closing a column ends because a position has room for only so many items, and it ends with a column that holds all
consequences of its items.

* `Item.FitsAt`: an item that there can be at a position; `length_le_itemBound` counts them;
* `mem_consequences_iff`: what follows from an item;
* `close_induction`: what holds of a column and is kept by adding consequences holds of its closure;
* `closed_close`: the closure is closed.
-/

namespace TreeLint

open List

namespace Grammar

variable {g : Grammar} {item : Chart.Item}

theorem next?_eq_some_iff {symbol : FlatSymbol} : g.next? item = some symbol ↔
      ∃ alt, g.alternatives[item.alternative]? = some alt ∧
        alt.symbols[item.dot]? = some symbol := by
  unfold next?
  cases h : g.alternatives[item.alternative]? <;> simp

theorem lhsOf_eq {alt : FlatAlternative} (h : g.alternatives[item.alternative]? = some alt) :
    g.lhsOf item = alt.lhs := by
  simp [lhsOf, h]

end Grammar

namespace Chart

variable {g : Grammar} {earlier : Array Column} {pos : Nat} {item : Item} {column : Column}

/-- An item is one of an alternative and began no later than a position. -/
def Item.FitsAt (grammar : Grammar) (position : Nat) (item : Item) : Prop :=
  ∃ alternative, grammar.alternatives[item.alternative]? = some alternative ∧
    item.dot ≤ alternative.symbols.length ∧ item.origin ≤ position

theorem Item.FitsAt.mono {later : Nat} (h : item.FitsAt g pos) (hle : pos ≤ later) :
    item.FitsAt g later := by
  obtain ⟨alt, ha, hd, ho⟩ := h
  exact ⟨alt, ha, hd, Nat.le_trans ho hle⟩

theorem Item.FitsAt.advance {symbol : Grammar.FlatSymbol} (h : item.FitsAt g pos)
    (hn : g.next? item = some symbol) : item.advance.FitsAt g pos := by
  obtain ⟨alt, ha, -, ho⟩ := h
  obtain ⟨other, hot, hs⟩ := Grammar.next?_eq_some_iff.1 hn
  rw [ha] at hot
  cases hot
  exact ⟨alt, ha, (List.getElem?_eq_some_iff.1 hs).1, ho⟩

theorem Item.FitsAt.complete (h : item.FitsAt g pos) (hn : g.next? item = none) :
    ∃ alt, g.alternatives[item.alternative]? = some alt ∧
      item.dot = alt.symbols.length := by
  obtain ⟨alt, ha, hd, -⟩ := h
  refine ⟨alt, ha, ?_⟩
  simp only [Grammar.next?, ha, Option.bind_eq_bind, Option.bind_some, List.getElem?_eq_none_iff] at hn
  omega

/-! ## Counting items -/

private def itemsOf (position : Nat) (entry : Grammar.FlatAlternative × Nat) : List Item :=
  (List.range (entry.1.symbols.length + 1)).flatMap fun dot =>
    (List.range (position + 1)).map fun origin => ⟨entry.2, dot, origin⟩

private theorem length_itemsOf (pos : Nat) (entry : Grammar.FlatAlternative × Nat) :
    (itemsOf pos entry).length = (entry.1.symbols.length + 1) * (pos + 1) := by
  simp [itemsOf, length_flatMap]

private theorem length_flatMap_itemsOf (pos : Nat) (alts : List Grammar.FlatAlternative) (start : Nat) :
    ((alts.zipIdx start).flatMap (itemsOf pos)).length =
      (alts.map fun alt => alt.symbols.length + 1).sum * (pos + 1) := by
  induction alts generalizing start with
  | nil => simp
  | cons alt alts ih =>
    simp only [zipIdx_cons, flatMap_cons, length_append, length_itemsOf, ih, map_cons, sum_cons, Nat.add_mul]

private theorem itemBound_eq (g : Grammar) (pos : Nat) : g.itemBound pos =
      (g.alternatives.toList.map fun alt => alt.symbols.length + 1).sum * (pos + 1) := by
  have hf : ∀ (alts : List Grammar.FlatAlternative) (total : Nat),
      alts.foldl (fun total alt => total + alt.symbols.length + 1) total =
        total + (alts.map fun alt => alt.symbols.length + 1).sum := by
    intro alts
    induction alts with
    | nil => simp
    | cons alt alts ih =>
      intro total
      rw [foldl_cons, ih, map_cons, sum_cons]
      omega
  rw [Grammar.itemBound, ← Array.foldl_toList, hf, Nat.zero_add]

private theorem size_le_itemBound (hn : column.items.toList.Nodup) (hf : ∀ item ∈ column.items, item.FitsAt g pos) :
    column.items.size ≤ g.itemBound pos := by
  have hs : column.items.toList ⊆ (g.alternatives.toList.zipIdx 0).flatMap (itemsOf pos) := by
    intro item hi
    obtain ⟨alt, ha, hd, ho⟩ := hf item (Array.mem_toList_iff.1 hi)
    rw [mem_flatMap]
    refine ⟨(alt, item.alternative), ?_, ?_⟩
    · rw [mem_zipIdx_iff_getElem?, Array.getElem?_toList]
      exact ha
    · simp only [itemsOf, mem_flatMap, mem_range, mem_map]
      exact ⟨item.dot, by omega, item.origin, by omega, rfl⟩
  have := (subperm_of_subset hn hs).length_le
  rwa [length_flatMap_itemsOf, ← itemBound_eq, Array.length_toList] at this

/-! ## Consequences -/

/-- What follows from an item: the items that waited for it, the beginnings of what it waits for, and the item itself
past a nonterminal that derives nothing. -/
theorem mem_consequences_iff {step : Item × Option Link} : step ∈ consequences g earlier pos item ↔
      (g.next? item = none ∧ item.origin ≠ pos ∧
        ∃ parent ∈ (earlier.getD item.origin {}).waiting (.nonterminal (g.lhsOf item)),
          step = (parent.advance, some (.phrase item.origin (g.lhsOf item)))) ∨
      ∃ name, g.next? item = some (.nonterminal name) ∧
        ((∃ alt ∈ g.alternativesOf name, step = (⟨alt.id, 0, pos⟩, none)) ∨
          (g.isNullable name ∧ step = (item.advance, some (.empty name)))) := by
  unfold consequences
  split
  · rename_i hn
    by_cases ho : item.origin = pos <;> simp [hn, ho, @eq_comm _ step]
  · rename_i hn
    simp [hn]
  · rename_i name hn
    by_cases hnl : g.isNullable name <;> simp [hn, hnl, @eq_comm _ step]

/-! ## Closing -/

def Column.HoldsAll (column : Column) (steps : List (Item × Option Link)) : Prop :=
  ∀ step ∈ steps, step.1 ∈ column.items ∧ ∀ link, step.2 = some link → link ∈ column.linksOf step.1

/-- A column holds all consequences of its items. -/
def Column.Closed (grammar : Grammar) (earlier : Array Column) (position : Nat) (column : Column) : Prop :=
  ∀ item ∈ column.items, column.HoldsAll (consequences grammar earlier position item)

theorem Column.HoldsAll.addAll {steps more : List (Item × Option Link)} (h : column.HoldsAll steps)
    (hc : column.Coherent g) : (column.addAll g more).HoldsAll steps := by
  intro step hs
  refine ⟨(Column.mem_items_addAll_iff hc).2 (.inl (h step hs).1), fun link hl => ?_⟩
  exact Column.mem_linksOf_addAll_iff.2 (.inl ((h step hs).2 link hl))

private theorem Column.holdsAll_addAll (hc : column.Coherent g) (steps : List (Item × Option Link)) :
    (column.addAll g steps).HoldsAll steps := by
  rintro ⟨item, found⟩ hs
  refine ⟨(Column.mem_items_addAll_iff hc).2 (.inr ⟨found, hs⟩), ?_⟩
  rintro link rfl
  exact Column.mem_linksOf_addAll_iff.2 (.inr hs)

private theorem closeFrom_induction {motive : Column → Prop} (hs : ∀ column item, motive column → item ∈ column.items →
      motive (column.addAll g (consequences g earlier pos item)))
    {fuel done : Nat} (h : motive column) : motive (closeFrom g earlier pos fuel done column) := by
  induction fuel generalizing done column with
  | zero => exact h
  | succ fuel ih =>
    unfold closeFrom
    split
    · exact h
    · rename_i item hi
      exact ih (hs column item h (Array.mem_of_getElem? hi))

/-- What holds of a column and stays true with each step holds of the closed column. -/
theorem close_induction {motive : Column → Prop} (hs : ∀ column item, motive column → item ∈ column.items →
      motive (column.addAll g (consequences g earlier pos item)))
    (h : motive column) : motive (close g earlier pos column) :=
  closeFrom_induction hs h

/-- A column in order: its views agree and its items fit. -/
structure Column.Sound (grammar : Grammar) (position : Nat) (column : Column) : Prop where
  coherent : column.Coherent grammar
  fits : ∀ item ∈ column.items, item.FitsAt grammar position

theorem Column.sound_empty (g : Grammar) (pos : Nat) : Column.Sound g pos {} :=
  ⟨Column.coherent_empty g, by simp⟩

private theorem Column.Sound.size_le (h : column.Sound g pos) : column.items.size ≤ g.itemBound pos :=
  size_le_itemBound h.coherent.nodup h.fits

theorem Column.Sound.addAll {steps : List (Item × Option Link)} (h : column.Sound g pos)
    (hs : ∀ step ∈ steps, step.1.FitsAt g pos) :
    (column.addAll g steps).Sound g pos where
  coherent := h.coherent.addAll steps
  fits := by
    intro item hi
    rcases (Column.mem_items_addAll_iff h.coherent).1 hi with hi | ⟨link, hl⟩
    · exact h.fits item hi
    · exact hs _ hl

/-- Consequences of items that fit do fit, if the columns before are in order. -/
private theorem fitsAt_of_mem_consequences (hg : g.Tabulated)
    (he : ∀ start < pos, (earlier.getD start {}).Sound g start)
    (hf : item.FitsAt g pos) {step : Item × Option Link}
    (hs : step ∈ consequences g earlier pos item) : step.1.FitsAt g pos := by
  rcases mem_consequences_iff.1 hs with ⟨-, ho, parent, hp, rfl⟩ | ⟨name, hn, h⟩
  · have hle : item.origin ≤ pos := hf.choose_spec.2.2
    have hsn := he item.origin (by omega)
    obtain ⟨hm, hw⟩ := hsn.coherent.mem_waiting_iff.1 hp
    exact ((hsn.fits parent hm).advance hw).mono hle
  · rcases h with ⟨alt, ha, rfl⟩ | ⟨-, rfl⟩
    · have hm := (Grammar.mem_alternativesOf_iff.1 ha).1
      exact ⟨alt, hg.getElem?_id hm, Nat.zero_le _, Nat.le_refl _⟩
    · exact hf.advance hn

variable (hg : g.Tabulated) (he : ∀ start < pos, (earlier.getD start {}).Sound g start)

include hg he

theorem Column.Sound.addAll_consequences (h : column.Sound g pos) (hi : item ∈ column.items) :
    (column.addAll g (consequences g earlier pos item)).Sound g pos :=
  h.addAll fun _ hs => fitsAt_of_mem_consequences hg he (h.fits item hi) hs

theorem Column.Sound.close (h : column.Sound g pos) :
    (close g earlier pos column).Sound g pos :=
  close_induction (fun _ _ hc hi => hc.addAll_consequences hg he hi) h

/-- With enough fuel the closure holds the consequences of all items, those dealt with before included. -/
private theorem closed_closeFrom {fuel done : Nat} (h : column.Sound g pos)
    (hd : ∀ i < done, ∀ item, column.items[i]? = some item →
      column.HoldsAll (consequences g earlier pos item))
    (hs : done ≤ column.items.size) (hf : g.itemBound pos < done + fuel) :
    (closeFrom g earlier pos fuel done column).Closed g earlier pos := by
  induction fuel generalizing done column with
  | zero =>
    have := h.size_le
    omega
  | succ fuel ih =>
    unfold closeFrom
    split
    · rename_i hn
      intro item hit
      obtain ⟨i, hi⟩ := Array.mem_iff_getElem?.1 hit
      have hlt := (Array.getElem?_eq_some_iff.1 hi).1
      exact hd i (by rw [Array.getElem?_eq_none_iff] at hn; omega) item hi
    · rename_i item hit
      have hm := Array.mem_of_getElem? hit
      have hlt := (Array.getElem?_eq_some_iff.1 hit).1
      refine ih (h.addAll_consequences hg he hm) ?_ ?_ (by omega)
      · intro i hi other ho
        rcases Nat.lt_succ_iff_lt_or_eq.1 hi with hi | rfl
        · -- the first items are where they were, with their consequences
          obtain ⟨old, hold⟩ : ∃ old, column.items[i]? = some old := ⟨_, Array.getElem?_eq_getElem (by omega)⟩
          rw [Column.getElem?_items_addAll h.coherent hold] at ho
          cases ho
          exact (hd i hi _ hold).addAll h.coherent
        · rw [Column.getElem?_items_addAll h.coherent hit] at ho
          cases ho
          exact Column.holdsAll_addAll h.coherent _
      · exact (Array.getElem?_eq_some_iff.1 (Column.getElem?_items_addAll h.coherent hit)).1

/-- Closing goes on until nothing follows any more. -/
theorem closed_close (h : column.Sound g pos) :
    (close g earlier pos column).Closed g earlier pos :=
  closed_closeFrom hg he h (by simp) (Nat.zero_le _) (by omega)

end Chart

end TreeLint
