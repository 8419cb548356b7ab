import TreeLint.Proofs.LayoutCover
import TreeLint.Tree.Basic

/-!
# Nodes in an array

A layout is filed in a tree from a number on (`Layout.Filed`) when its nodes stand there in preorder, with the numbers of
their children and their parents.

* `filed_ofForest`: the tree of a forest has its layout filed from number 0 on;
* `Filed.exists_at`: at every number of a filed layout, a layout inside it is filed;
* `Filed.walk_eq`: going down from a node visits the numbers of its layout one after the other;
* `Filed.filterMap_token_eq`: the tokens met on the way are those that the layout covers.
-/

namespace TreeLint

open List

namespace Layout

variable {tree : Tree} {parent : Option Nat} {id above number first : Nat} {layout : Layout} {layouts : List Layout}

/-! ## Filed layouts -/

/-- The first node of a layout that is filed under a number. -/
def head (grammar : Grammar) (tokens : Array Token) (parent : Option Nat) (id : Nat) : Layout → Node
  | .leaf token start stop =>
    let piece := tokens.getD token default
    { kind := piece.kind, kindId := grammar.kindId piece.kind, start, stop, parent, token := some token,
      trivia := piece.trivia }
  | .node kind start stop children =>
    { kind, kindId := grammar.kindId kind, start, stop, children := childIds (id + 1) children, parent }

def children : Layout → List Layout
  | .leaf _ _ _ => []
  | .node _ _ _ children => children

mutual

/-- The nodes of a layout stand in a tree from a number on. -/
def Filed (tree : Tree) (parent : Option Nat) (id : Nat) : Layout → Prop
  | .leaf token start stop =>
    tree.nodes[id]? = some (head tree.grammar tree.tokens parent id (.leaf token start stop))
  | .node kind start stop children =>
    tree.nodes[id]? = some (head tree.grammar tree.tokens parent id (.node kind start stop children)) ∧
      FiledAll tree id (id + 1) children

/-- The nodes of siblings stand in a tree from a number on. -/
def FiledAll (tree : Tree) (parent id : Nat) : List Layout → Prop
  | [] => True
  | child :: children => Filed tree (some parent) id child ∧ FiledAll tree parent (id + child.size) children

end

private theorem Filed.getElem? (h : Filed tree parent id layout) :
    tree.nodes[id]? = some (head tree.grammar tree.tokens parent id layout) := by
  cases layout with
  | leaf => exact h
  | node => exact h.1

theorem Filed.node_eq (h : Filed tree parent id layout) :
    tree.node id = head tree.grammar tree.tokens parent id layout := by
  rw [Tree.node, Array.getD_eq_getD_getElem?, h.getElem?, Option.getD_some]

theorem Filed.children (h : Filed tree parent id layout) : FiledAll tree id (id + 1) layout.children := by
  cases layout with
  | leaf => trivial
  | node => exact h.2

theorem size_eq (layout : Layout) : layout.size = sizeOfAll layout.children + 1 := by
  cases layout <;> rfl

theorem size_pos (layout : Layout) : 0 < layout.size := by
  rw [size_eq]
  exact Nat.succ_pos _

theorem head_children (g : Grammar) (tokens : Array Token) (parent : Option Nat) (id : Nat) (layout : Layout) :
    (head g tokens parent id layout).children = childIds (id + 1) layout.children := by
  cases layout <;> rfl

theorem head_parent (g : Grammar) (tokens : Array Token) (parent : Option Nat) (id : Nat) (layout : Layout) :
    (head g tokens parent id layout).parent = parent := by
  cases layout <;> rfl

private theorem nodes_eq (g : Grammar) (tokens : Array Token) (parent : Option Nat) (id : Nat) (layout : Layout) :
    nodes g tokens parent id layout =
      head g tokens parent id layout :: nodesOfAll g tokens id (id + 1) layout.children := by
  cases layout <;> rfl

/-- What holds of a layout if it holds of those right below it holds of all layouts. -/
theorem childrenInduction {motive : Layout → Prop}
    (step : ∀ layout, (∀ child ∈ layout.children, motive child) → motive layout) (layout : Layout) : motive layout := by
  induction layout using Layout.induction with
  | leaf token start stop => exact step _ (forall_mem_nil _)
  | node kind start stop children ih => exact step _ ih

private theorem length_nodesOfAll {g : Grammar} {tokens : Array Token}
    (h : ∀ layout ∈ layouts, ∀ parent id, (nodes g tokens parent id layout).length = layout.size)
    (parent id : Nat) : (nodesOfAll g tokens parent id layouts).length = sizeOfAll layouts := by
  induction layouts generalizing id with
  | nil => rfl
  | cons layout layouts ih =>
    rw [nodesOfAll, length_append, h layout mem_cons_self, ih (forall_mem_cons.1 h).2]
    rfl

private theorem length_nodes (g : Grammar) (tokens : Array Token) (parent : Option Nat) (id : Nat) (layout : Layout) :
    (nodes g tokens parent id layout).length = layout.size := by
  induction layout using childrenInduction generalizing parent id with
  | step layout ih => rw [nodes_eq, length_cons, length_nodesOfAll ih, size_eq]

private theorem prefix_drop_of_append {entries more list : List Node} (h : entries ++ more <+: list) :
    entries <+: list ∧ more <+: list.drop entries.length := by
  obtain ⟨rest, rfl⟩ := h
  rw [append_assoc]
  exact ⟨prefix_append _ _, by rw [drop_left]; exact prefix_append _ _⟩

private theorem filedAll_of_prefix (h : ∀ layout ∈ layouts, ∀ {parent : Option Nat} {id : Nat},
      nodes tree.grammar tree.tokens parent id layout <+: tree.nodes.toList.drop id → Filed tree parent id layout)
    {parent id : Nat} (hn : nodesOfAll tree.grammar tree.tokens parent id layouts <+: tree.nodes.toList.drop id) :
    FiledAll tree parent id layouts := by
  induction layouts generalizing id with
  | nil => trivial
  | cons layout layouts ih =>
    obtain ⟨hf, hr⟩ := prefix_drop_of_append hn
    rw [length_nodes, drop_drop] at hr
    exact ⟨h layout mem_cons_self hf, ih (forall_mem_cons.1 h).2 hr⟩

private theorem filed_of_prefix (h : nodes tree.grammar tree.tokens parent id layout <+: tree.nodes.toList.drop id) :
    Filed tree parent id layout := by
  induction layout using childrenInduction generalizing parent id with
  | step layout ih =>
    rw [nodes_eq] at h
    obtain ⟨rest, hr⟩ := h
    have hh : tree.nodes[id]? = some (head tree.grammar tree.tokens parent id layout) := by
      rw [← Array.getElem?_toList, ← Nat.add_zero id, ← getElem?_drop, Nat.add_zero, ← hr]
      rfl
    have hb : nodesOfAll tree.grammar tree.tokens id (id + 1) layout.children <+:
        tree.nodes.toList.drop (id + 1) := by
      rw [← drop_drop, ← hr]
      exact prefix_append _ _
    have ha := filedAll_of_prefix (fun child hc => ih child hc) hb
    cases layout with
    | leaf => exact hh
    | node => exact ⟨hh, ha⟩

theorem filed_ofForest (forest : Forest) (src : Source) (path : String) (lexical : List Problem) :
    Filed (Tree.ofForest forest src path lexical) none 0
      (root forest.tokens src.size (Draft.ofForest forest)) :=
  filed_of_prefix (prefix_refl _)

theorem size_ofForest (forest : Forest) (src : Source) (path : String) (lexical : List Problem) :
    (Tree.ofForest forest src path lexical).size =
      (root forest.tokens src.size (Draft.ofForest forest)).size := by
  rw [Tree.size, Tree.ofForest, size_toArray, length_nodes]

/-! ## Finding one's way -/

theorem le_of_mem_childIds (h : number ∈ childIds first layouts) : first ≤ number := by
  induction layouts generalizing first with
  | nil => cases h
  | cons layout layouts ih =>
    rcases mem_cons.1 h with rfl | h
    · exact Nat.le_refl _
    · exact Nat.le_trans (Nat.le_add_right _ _) (ih h)

/-- The layout with a number is one of several siblings, or lies below one. -/
theorem FiledAll.exists_child (h : FiledAll tree above first layouts) (hle : first ≤ number)
    (hlt : number < first + sizeOfAll layouts) :
    ∃ child ∈ layouts, ∃ start ∈ childIds first layouts,
      Filed tree (some above) start child ∧ start ≤ number ∧ number < start + child.size := by
  induction layouts generalizing first with
  | nil =>
    rw [sizeOfAll] at hlt
    omega
  | cons layout layouts ih =>
    rw [sizeOfAll] at hlt
    by_cases hh : number < first + layout.size
    · exact ⟨layout, mem_cons_self, first, mem_cons_self, h.1, hle, hh⟩
    · obtain ⟨child, hc, start, hs, hr⟩ := ih h.2 (by omega) (by omega)
      exact ⟨child, mem_cons_of_mem _ hc, start, mem_cons_of_mem _ hs, hr⟩

/-- At every number of a filed layout, a layout inside it is filed; all but the first are children of their parents. -/
theorem Filed.exists_at {P : Layout → Prop} (hP : ∀ layout, P layout → ∀ child ∈ layout.children, P child)
    (h : Filed tree parent id layout) (hl : P layout) (hle : id ≤ number) (hlt : number < id + layout.size) :
    ∃ found above, Filed tree above number found ∧ P found ∧
      (number = id ∧ above = parent ∨ ∃ p, above = some p ∧ number ∈ (tree.node p).children) := by
  induction layout using childrenInduction generalizing parent id with
  | step layout ih =>
    by_cases hh : number = id
    · subst hh
      exact ⟨layout, parent, h, hl, .inl ⟨rfl, rfl⟩⟩
    · rw [size_eq] at hlt
      obtain ⟨child, hc, start, hs, hf, hfr, hls⟩ := h.children.exists_child (show id + 1 ≤ number by omega) (by omega)
      obtain ⟨found, above, hfn, hPfound, hp⟩ :=
        ih child hc hf (hP layout hl child hc) hfr hls
      refine ⟨found, above, hfn, hPfound, .inr ?_⟩
      rcases hp with ⟨rfl, rfl⟩ | hp
      · exact ⟨id, rfl, by rwa [h.node_eq, head_children]⟩
      · exact hp

theorem FiledAll.parent_eq (h : FiledAll tree above first layouts)
    (hn : number ∈ childIds first layouts) : (tree.node number).parent = some above := by
  induction layouts generalizing first with
  | nil => cases hn
  | cons layout layouts ih =>
    rcases mem_cons.1 hn with rfl | hn
    · rw [h.1.node_eq, head_parent]
    · exact ih h.2 hn

private theorem FiledAll.walkLevels_eq {first levels : Nat} (h : FiledAll tree above first layouts)
    (hw : ∀ layout ∈ layouts, ∀ parent id, Filed tree parent id layout →
      layout.size ≤ levels → tree.walkLevels levels id = List.range' id layout.size)
    (hl : sizeOfAll layouts ≤ levels) :
    (childIds first layouts).flatMap (tree.walkLevels levels) = List.range' first (sizeOfAll layouts) := by
  induction layouts generalizing first with
  | nil => rfl
  | cons layout layouts ih =>
    rw [sizeOfAll] at hl
    rw [childIds, flatMap_cons, hw layout mem_cons_self _ _ h.1 (by omega),
      ih h.2 (forall_mem_cons.1 hw).2 (by omega), sizeOfAll,
      range'_append_1]

private theorem Filed.walkLevels_eq (h : Filed tree parent id layout) {levels : Nat} (hl : layout.size ≤ levels) :
    tree.walkLevels levels id = List.range' id layout.size := by
  induction layout using childrenInduction generalizing parent id levels with
  | step layout ih =>
    rw [size_eq] at hl ⊢
    cases levels with
    | zero => omega
    | succ levels =>
      rw [Tree.walkLevels, h.node_eq, head_children, h.children.walkLevels_eq
        (fun child hc _ _ hf => ih child hc hf) (by omega), range'_succ]

private theorem FiledAll.add_sizeOfAll_le (h : FiledAll tree above first layouts)
    (hs : ∀ layout ∈ layouts, ∀ parent id, Filed tree parent id layout →
      id + layout.size ≤ tree.size) (hf : first ≤ tree.size) : first + sizeOfAll layouts ≤ tree.size := by
  induction layouts generalizing first with
  | nil => exact hf
  | cons layout layouts ih =>
    rw [sizeOfAll, ← Nat.add_assoc]
    exact ih h.2 (forall_mem_cons.1 hs).2 (hs layout mem_cons_self _ _ h.1)

theorem Filed.add_size_le (h : Filed tree parent id layout) : id + layout.size ≤ tree.size := by
  induction layout using childrenInduction generalizing parent id with
  | step layout ih =>
    have hlt : id < tree.size := (Array.getElem?_eq_some_iff.1 h.getElem?).1
    have := h.children.add_sizeOfAll_le (fun child hc _ _ hf => ih child hc hf) hlt
    rw [size_eq]
    omega

/-- Going down from a node visits the numbers of its layout one after the other. -/
theorem Filed.walk_eq (h : Filed tree parent id layout) : tree.walk id = List.range' id layout.size :=
  h.walkLevels_eq (by have := h.add_size_le; omega)

/-! ## Ranges and tokens -/

variable {offset : Nat → Nat} {last : Nat}

theorem Covers.head_start (h : Covers offset first last layout) (g : Grammar) (tokens : Array Token)
    (parent : Option Nat) (id : Nat) : (head g tokens parent id layout).start = offset first := by
  cases layout with
  | leaf => exact h.2.2.1
  | node => exact h.1

theorem Covers.head_stop (h : Covers offset first last layout) (g : Grammar) (tokens : Array Token)
    (parent : Option Nat) (id : Nat) : (head g tokens parent id layout).stop = offset last := by
  cases layout with
  | leaf => exact h.2.2.2
  | node => exact h.2.1

theorem Covers.exists_covers (h : Covers offset first last layout) {child : Layout} (hc : child ∈ layout.children) :
    ∃ start stop, Covers offset start stop child ∧ first ≤ start ∧ stop ≤ last := by
  cases layout with
  | leaf => cases hc
  | node => exact h.2.2.exists_covers hc

private theorem FiledAll.filterMap_token_eq {start : Nat} (h : FiledAll tree above start layouts)
    (hc : CoversAll offset first last layouts)
    (ht : ∀ layout ∈ layouts, ∀ parent id first last, Filed tree parent id layout → Covers offset first last layout →
        (List.range' id layout.size).filterMap (fun number => (tree.node number).token) =
          List.range' first (last - first)) :
    (List.range' start (sizeOfAll layouts)).filterMap (fun number => (tree.node number).token) =
      List.range' first (last - first) := by
  induction layouts generalizing start first with
  | nil =>
    rw [CoversAll] at hc
    rw [hc, Nat.sub_self]
    rfl
  | cons layout layouts ih =>
    obtain ⟨middle, hl, hr⟩ := hc
    have hle := hl.le
    have hle' := hr.le
    rw [sizeOfAll, ← range'_append_1, filterMap_append, ht layout mem_cons_self _ _ _ _ h.1 hl,
      ih h.2 hr (forall_mem_cons.1 ht).2]
    rw [show last - first = (middle - first) + (last - middle) by omega, ← range'_append_1,
      show first + (middle - first) = middle by omega]

theorem Filed.filterMap_token_eq (h : Filed tree parent id layout) (hc : Covers offset first last layout) :
    (List.range' id layout.size).filterMap (fun number => (tree.node number).token) =
      List.range' first (last - first) := by
  induction layout using Layout.induction generalizing parent id first last with
  | leaf token start stop =>
    obtain ⟨rfl, rfl, -⟩ := hc
    rw [Nat.add_sub_cancel_left, size]
    simp [h.node_eq, head]
  | node kind start stop children ih =>
    have hn : (tree.node id).token = none := by rw [h.node_eq, head]
    rw [size, range'_succ, filterMap_cons, hn]
    exact h.2.filterMap_token_eq hc.2.2 fun child hch _ _ _ _ hf hc' => ih child hch hf hc'

/-- Ranges that follow each other from one offset to another. -/
inductive Consecutive : Nat → Nat → List (Nat × Nat) → Prop
  | nil {here : Nat} : Consecutive here here []
  | cons {start stop last : Nat} {ranges : List (Nat × Nat)} : Consecutive stop last ranges →
      Consecutive start last ((start, stop) :: ranges)

theorem FiledAll.consecutive {start : Nat} (h : FiledAll tree above start layouts)
    (hc : CoversAll offset first last layouts) :
    Consecutive (offset first) (offset last)
      ((childIds start layouts).map fun child => ((tree.node child).start, (tree.node child).stop)) := by
  induction layouts generalizing start first with
  | nil =>
    rw [CoversAll] at hc
    rw [hc]
    exact .nil
  | cons layout layouts ih =>
    obtain ⟨middle, hl, hr⟩ := hc
    rw [childIds, map_cons, h.1.node_eq, hl.head_start, hl.head_stop]
    exact .cons (ih h.2 hr)

end Layout

/-- What is read off leaves by their tokens is read off the list of their tokens. -/
theorem Tree.map_filter_isLeaf {α : Type} (tree : Tree) (f : Nat → α) (g : Nat → α) (ids : List Nat)
    (hfg : ∀ {id place : Nat}, (tree.node id).token = some place → f id = g place) :
    (ids.filter fun below => (tree.node below).isLeaf).map f =
      (ids.filterMap fun below => (tree.node below).token).map g := by
  induction ids with
  | nil => rfl
  | cons id ids ih =>
    cases ht : (tree.node id).token with
    | none =>
      have hl : (tree.node id).isLeaf = false := by rw [Node.isLeaf, ht]; rfl
      rw [filter_cons_of_neg (by simp [hl]), filterMap_cons, ht, ih]
    | some place =>
      have hl : (tree.node id).isLeaf = true := by rw [Node.isLeaf, ht]; rfl
      rw [filter_cons_of_pos (by simp [hl]), filterMap_cons, ht, map_cons, map_cons, hfg ht, ih]

end TreeLint
