import TreeLint.Proofs.Lossless

/-!
# Nodes below a node

The nodes below a node are numbered one after the other, so that they are known from the last of them.

* `Tree.Below`: a node can be reached from another by going from parents to children;
* `Tree.Grown.mem_descendants_iff`: the nodes that are counted as descendants of a node are those below it.
-/

namespace TreeLint

open List

/-- Going down from a node, at least one step, another is reached. -/
def Tree.Below (tree : Tree) : Nat → Nat → Prop :=
  Relation.TransGen fun parent child => child ∈ (tree.node parent).children

namespace Layout

variable {tree : Tree} {parent : Option Nat} {id : Nat} {layout : Layout}

/-! ## The last node -/

theorem FiledAll.exists_last {layouts : List Layout} {above first : Nat} (h : FiledAll tree above first layouts)
    (hl : layouts ≠ []) :
    ∃ child ∈ layouts, ∃ start, (childIds first layouts).getLast? = some start ∧ Filed tree (some above) start child ∧
      first ≤ start ∧ start + child.size = first + sizeOfAll layouts := by
  induction layouts generalizing first with
  | nil => exact absurd rfl hl
  | cons layout layouts ih =>
    cases layouts with
    | nil => exact ⟨layout, mem_cons_self, first, rfl, h.1, Nat.le_refl _, rfl⟩
    | cons second layouts =>
      obtain ⟨child, hc, start, hls, hf, hle, hs⟩ := ih h.2 (cons_ne_nil _ _)
      refine ⟨child, mem_cons_of_mem _ hc, start, ?_, hf, by omega, ?_⟩
      · rw [childIds, childIds, getLast?_cons_cons, ← childIds]
        exact hls
      · rw [hs, Nat.add_assoc]
        rfl

/-- The last node below a node stands at the end of its layout. -/
private theorem Filed.lastBelow_eq (h : Filed tree parent id layout) {levels : Nat} (hl : layout.size ≤ levels) :
    tree.lastBelow levels id + 1 = id + layout.size := by
  induction layout using childrenInduction generalizing parent id levels with
  | step layout ih =>
    rw [size_eq] at hl ⊢
    cases levels with
    | zero => omega
    | succ levels =>
      rw [Tree.lastBelow, h.node_eq, head_children]
      by_cases hn : layout.children = []
      · rw [hn]
        rfl
      · obtain ⟨child, hc, start, hls, hf, hle, hs⟩ := h.children.exists_last hn
        have he : tree.lastBelow levels start + 1 = start + child.size := ih child hc hf (by omega)
        rw [hls]
        dsimp only
        omega

theorem Filed.descendants_eq (h : Filed tree parent id layout) :
    tree.descendants id = List.range' (id + 1) (layout.size - 1) := by
  have hs := h.add_size_le
  have he : tree.lastBelow tree.size id + 1 = id + layout.size := h.lastBelow_eq (by omega)
  rw [Tree.descendants, Tree.endOf, he]
  congr 1
  omega

/-! ## Going down -/

private theorem FiledAll.exists_of_mem {layouts : List Layout} {above first number : Nat}
    (h : FiledAll tree above first layouts) (hn : number ∈ childIds first layouts) :
    ∃ child ∈ layouts, Filed tree (some above) number child ∧ first ≤ number ∧
      number + child.size ≤ first + sizeOfAll layouts := by
  induction layouts generalizing first with
  | nil => cases hn
  | cons layout layouts ih =>
    rw [sizeOfAll]
    rcases mem_cons.1 hn with rfl | hn
    · exact ⟨layout, mem_cons_self, h.1, Nat.le_refl _, by omega⟩
    · obtain ⟨child, hc, hf, hle, he⟩ := ih h.2 hn
      exact ⟨child, mem_cons_of_mem _ hc, hf, by omega, by omega⟩

private theorem Filed.bounds_of_below (h : Filed tree parent id layout) {target : Nat} (hb : tree.Below id target) :
    id < target ∧ target < id + layout.size := by
  induction layout using childrenInduction generalizing parent id with
  | step layout ih =>
    obtain ⟨child, hc, hr⟩ := Relation.TransGen.head'_iff.1 hb
    rw [h.node_eq, head_children] at hc
    obtain ⟨inner, hi, hf, hle, he⟩ := h.children.exists_of_mem hc
    rw [size_eq]
    have hp := inner.size_pos
    rcases Relation.reflTransGen_iff_eq_or_transGen.1 hr with rfl | hr
    · omega
    · have hbn := ih inner hi hf hr
      omega

/-- What has a number of the layout of a node, but not the first, lies below the node. -/
theorem Filed.below_of_bounds (h : Filed tree parent id layout) {target : Nat} (hlt : id < target)
    (he : target < id + layout.size) : tree.Below id target := by
  induction layout using childrenInduction generalizing parent id with
  | step layout ih =>
    rw [size_eq] at he
    obtain ⟨inner, hi, start, hs, hf, hle, hl⟩ := h.children.exists_child (show id + 1 ≤ target by omega) (by omega)
    have hc : start ∈ (tree.node id).children := by rwa [h.node_eq, head_children]
    by_cases heq : start = target
    · subst heq
      exact .single hc
    · exact .head hc (ih inner hi hf (by omega) hl)

end Layout

namespace Tree

variable {tree : Tree}

private theorem descendants_eq_nil {id : Nat} (hid : tree.size ≤ id) : tree.descendants id = [] := by
  have hl : ∀ levels, tree.lastBelow levels id = id := by
    intro levels
    cases levels with
    | zero => rfl
    | succ levels =>
      rw [lastBelow, Grown.node_of_size_le hid]
      rfl
  rw [descendants, endOf, hl, Nat.sub_self]
  rfl

theorem Grown.mem_descendants_iff {cut : Nat → Nat} {layout : Layout} (h : Grown tree cut layout) (id target : Nat) :
    target ∈ tree.descendants id ↔ tree.Below id target := by
  by_cases hid : id < tree.size
  · obtain ⟨found, above, -, -, hf, -⟩ := h.exists_at hid
    have hp := found.size_pos
    rw [hf.descendants_eq, mem_range'_1]
    constructor
    · rintro ⟨hle, hlt⟩
      exact hf.below_of_bounds (by omega) (by omega)
    · intro hb
      have hbn := hf.bounds_of_below hb
      omega
  · rw [descendants_eq_nil (by omega)]
    refine ⟨fun hm => absurd hm not_mem_nil, fun hb => ?_⟩
    obtain ⟨child, hc, -⟩ := Relation.TransGen.head'_iff.1 hb
    rw [Grown.node_of_size_le (by omega)] at hc
    cases hc

end Tree

end TreeLint
