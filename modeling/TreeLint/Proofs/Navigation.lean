import TreeLint.Proofs.Descendants
import TreeLint.Proofs.Sentences

/-!
# Nodes at an offset

Siblings lie apart, so that of the children of a node at most one holds a given byte (`Tree.Holds`).

* `Tree.Grown.holds_nodeAt`: going down from the root to the child that holds a byte ends at a leaf that does;
* `Tree.Grown.above_of_holds`: every node that holds the byte is that leaf or lies above it;
* `Tree.parse_navigable`: in parsed trees, ways up, ways down and the way to a byte agree.
-/

namespace TreeLint

open List

namespace Layout.Consecutive

variable {start stop offset : Nat} {ranges : List (Nat × Nat)}

private theorem exists_of_between (h : Consecutive start stop ranges) (hle : start ≤ offset) (hlt : offset < stop) :
    ∃ range ∈ ranges, range.1 ≤ offset ∧ offset < range.2 := by
  induction h with
  | nil => omega
  | @cons start middle last ranges _ ih =>
    by_cases hh : offset < middle
    · exact ⟨_, mem_cons_self, hle, hh⟩
    · obtain ⟨range, hr, hhl⟩ := ih (by omega) hlt
      exact ⟨range, mem_cons_of_mem _ hr, hhl⟩

/-- Ranges that follow each other lie inside the whole, one behind the other. -/
theorem bounds (h : Consecutive start stop ranges) (hr : ∀ range ∈ ranges, range.1 ≤ range.2) :
    start ≤ stop ∧ (∀ range ∈ ranges, start ≤ range.1 ∧ range.2 ≤ stop) ∧
      ranges.Pairwise fun range other => range.2 ≤ other.1 := by
  induction h with
  | nil => exact ⟨Nat.le_refl _, forall_mem_nil _, .nil⟩
  | @cons start middle last ranges _ ih =>
    rw [forall_mem_cons] at hr
    obtain ⟨hle, hi, ha⟩ := ih hr.2
    have hf : start ≤ middle := hr.1
    refine ⟨by omega, forall_mem_cons.2 ⟨⟨Nat.le_refl _, hle⟩, fun range hrn => ?_⟩, ?_⟩
    · have := hi range hrn
      omega
    · exact pairwise_cons.2 ⟨fun range hrn => (hi range hrn).1, ha⟩

end Layout.Consecutive

namespace Tree

/-- The range of a node holds a byte. -/
def Holds (tree : Tree) (offset id : Nat) : Prop :=
  (tree.node id).start ≤ offset ∧ offset < (tree.node id).stop

/-- A node is another one or lies above it. -/
def Above (tree : Tree) : Nat → Nat → Prop :=
  Relation.ReflTransGen fun parent child => child ∈ (tree.node parent).children

namespace Grown

variable {tree : Tree} {cut : Nat → Nat} {layout : Layout} {id above child other offset : Nat}
  (h : Grown tree cut layout)

include h

theorem lt_size_of_mem_children (hc : child ∈ (tree.node above).children) : child < tree.size ∧ above < child := by
  have hp := (h.mem_children_iff above child).1 hc
  refine ⟨Nat.lt_of_not_le fun hs => ?_, h.parent_lt hp⟩
  rw [node_of_size_le hs] at hp
  cases hp

theorem start_le_stop (hid : id < tree.size) : (tree.node id).start ≤ (tree.node id).stop := by
  obtain ⟨found, above, first, last, hf, hc, hl, -⟩ := h.exists_at hid
  rw [hf.node_eq, hc.head_start, hc.head_stop]
  rw [← Array.length_toList] at hl
  exact h.coherent.byteAt_le (h.cuts.le hc.le hl) (h.cuts.length ▸ h.cuts.le hl (Nat.le_refl _))

/-! ## Siblings -/

theorem children_bounds (hid : id < tree.size) : (∀ child ∈ (tree.node id).children,
      (tree.node id).start ≤ (tree.node child).start ∧ (tree.node child).stop ≤ (tree.node id).stop) ∧
    (tree.node id).children.Pairwise fun child other => (tree.node child).stop ≤ (tree.node other).start := by
  by_cases hn : (tree.node id).children = []
  · rw [hn]
    exact ⟨forall_mem_nil _, .nil⟩
  · obtain ⟨-, hi, ha⟩ := (h.children_ranges hid hn).bounds (forall_mem_map.2 fun child hc =>
      h.start_le_stop (h.lt_size_of_mem_children hc).1)
    exact ⟨forall_mem_map.1 hi, pairwise_map.1 ha⟩

theorem lt_size_of_children (hc : child ∈ (tree.node above).children) : above < tree.size :=
  Nat.lt_trans (h.lt_size_of_mem_children hc).2 (h.lt_size_of_mem_children hc).1

theorem siblings_apart (hc : child ∈ (tree.node above).children) (ho : other ∈ (tree.node above).children)
    (hne : child ≠ other) :
    (tree.node child).stop ≤ (tree.node other).start ∨ (tree.node other).stop ≤ (tree.node child).start := by
  have ha := (h.children_bounds (h.lt_size_of_children hc)).2
  obtain ⟨i, hi, rfl⟩ := getElem_of_mem hc
  obtain ⟨j, hj, rfl⟩ := getElem_of_mem ho
  rcases Nat.lt_trichotomy i j with hlt | rfl | hlt
  · exact .inl (pairwise_iff_getElem.1 ha i j hi hj hlt)
  · exact absurd rfl hne
  · exact .inr (pairwise_iff_getElem.1 ha j i hj hi hlt)

private theorem eq_of_holds (hc : child ∈ (tree.node above).children) (ho : other ∈ (tree.node above).children)
    (hof : tree.Holds offset child) (ho' : tree.Holds offset other) : child = other := by
  by_contra hne
  unfold Holds at hof ho'
  rcases h.siblings_apart hc ho hne with hle | hle <;> omega

/-! ## Nodes above a node -/

theorem mem_ancestors_iff : above ∈ tree.ancestors id ↔ tree.Below above id := by
  induction id using Nat.strongRecOn with
  | ind id ih =>
    rw [Below, Relation.TransGen.tail'_iff]
    cases hp : (tree.node id).parent with
    | none =>
      refine iff_of_false (by rw [ancestors_eq_nil hp]; exact not_mem_nil) fun hb => ?_
      obtain ⟨parent, -, hc⟩ := hb
      cases hp.symm.trans ((h.mem_children_iff _ _).1 hc)
    | some parent =>
      rw [ancestors_eq_cons h.parent_lt hp, mem_cons, ih parent (h.parent_lt hp)]
      constructor
      · rintro (rfl | hb)
        · exact ⟨_, .refl, (h.mem_children_iff _ _).2 hp⟩
        · exact ⟨parent, hb.to_reflTransGen, (h.mem_children_iff _ _).2 hp⟩
      · rintro ⟨between, ha, hc⟩
        cases hp.symm.trans ((h.mem_children_iff _ _).1 hc)
        exact (Relation.reflTransGen_iff_eq_or_transGen.1 ha).imp_left Eq.symm

/-- Of two nodes above a node one lies above the other. -/
theorem above_or_below (ha : tree.Above above id) (ho : tree.Above other id) :
    tree.Above above other ∨ tree.Below other above := by
  have hu : Relator.RightUnique (Function.swap fun parent child => child ∈ (tree.node parent).children) := by
    intro child first second hf hs
    have := (h.mem_children_iff _ _).1 hf
    rwa [(h.mem_children_iff _ _).1 hs, Option.some.injEq, eq_comm] at this
  rcases Relation.ReflTransGen.total_of_right_unique hu (Relation.reflTransGen_swap.2 ha)
    (Relation.reflTransGen_swap.2 ho) with hab | hab
  · rcases Relation.reflTransGen_iff_eq_or_transGen.1 (Relation.reflTransGen_swap.1 hab) with rfl | hb
    · exact .inl .refl
    · exact .inr hb
  · exact .inl (Relation.reflTransGen_swap.1 hab)

theorem lt_size_of_above (ha : tree.Above above id) (hid : id < tree.size) : above < tree.size := by
  rcases Relation.ReflTransGen.cases_head ha with rfl | ⟨child, hc, -⟩
  · exact hid
  · exact h.lt_size_of_children hc

theorem range_of_above (ha : tree.Above above id) (hid : id < tree.size) :
    (tree.node above).start ≤ (tree.node id).start ∧ (tree.node id).stop ≤ (tree.node above).stop := by
  induction ha with
  | refl => exact ⟨Nat.le_refl _, Nat.le_refl _⟩
  | tail _ hc ih =>
    have hp := h.lt_size_of_children hc
    have := ih hp
    have := (h.children_bounds hp).1 _ hc
    omega

private theorem above_root (hid : id < tree.size) : tree.Above 0 id := by
  rcases Nat.eq_zero_or_pos id with rfl | hp
  · exact .refl
  · rw [h.size_eq] at hid
    exact (h.filed.below_of_bounds hp (by omega)).to_reflTransGen

/-- The nodes that hold a byte of a leaf lie above it. -/
theorem above_of_holds {leaf : Nat} (hl : (tree.node leaf).children = []) (hs : leaf < tree.size)
    (ho : tree.Holds offset leaf) (hid : id < tree.size) (hh : tree.Holds offset id) :
    tree.Above id leaf := by
  induction id using Nat.strongRecOn with
  | ind id ih =>
    by_cases hz : id = 0
    · subst hz
      exact h.above_root hs
    obtain ⟨parent, hp⟩ := Option.ne_none_iff_exists'.1 (mt (h.parent_eq_none_iff hid).1 hz)
    have hc := (h.mem_children_iff _ _).2 hp
    have hlt := h.parent_lt hp
    have hi := (h.children_bounds (Nat.lt_trans hlt hid)).1 _ hc
    have ha := ih parent hlt (Nat.lt_trans hlt hid) ⟨by have := hh.1; omega, by have := hh.2; omega⟩
    -- of the children of the parent, the one above the leaf holds the byte too
    rcases Relation.ReflTransGen.cases_head ha with rfl | ⟨between, hb, ha⟩
    · rw [hl] at hc
      cases hc
    · have hr := h.range_of_above ha hs
      have hh' : tree.Holds offset between :=
        ⟨by have := ho.1; omega, by have := ho.2; omega⟩
      rwa [h.eq_of_holds hc hb hh hh']

/-! ## Going down to a byte -/

private theorem isLeaf_of_holds (hid : id < tree.size) (hh : tree.Holds offset id) (hn : (tree.node id).children = []) :
    (tree.node id).isLeaf := by
  by_contra hl
  have he := h.empty_range hid (by rw [leaves, walk, walkLevels, hn]; simp [hl])
  unfold Holds at hh
  omega

private theorem holds_nodeAtFrom {levels : Nat} (hid : id < tree.size) (hh : tree.Holds offset id)
    (hl : tree.size ≤ id + levels) :
    tree.nodeAtFrom offset levels id < tree.size ∧ (tree.node (tree.nodeAtFrom offset levels id)).isLeaf ∧
      tree.Holds offset (tree.nodeAtFrom offset levels id) := by
  induction levels generalizing id with
  | zero => omega
  | succ levels ih =>
    rw [nodeAtFrom]
    split
    next child hf =>
      have hc := mem_of_find?_eq_some hf
      have hi := find?_some hf
      have hb := h.lt_size_of_mem_children hc
      simp only [Bool.and_eq_true, decide_eq_true_eq, Int.ofNat_le, Int.ofNat_lt] at hi
      exact ih hb.1 hi (by omega)
    next hf =>
      refine ⟨hid, h.isLeaf_of_holds hid hh ?_, hh⟩
      by_contra hch
      obtain ⟨range, hr, hle, hlt⟩ := (h.children_ranges hid hch).exists_of_between hh.1 hh.2
      obtain ⟨child, hc, rfl⟩ := mem_map.1 hr
      have hm := find?_eq_none.1 hf child hc
      simp only [Bool.and_eq_true, decide_eq_true_eq, Int.ofNat_le, Int.ofNat_lt] at hm
      exact hm ⟨hle, hlt⟩

/-- The node at a byte is a leaf that holds it. -/
theorem holds_nodeAt (ho : offset < tree.source.size) :
    tree.nodeAt offset < tree.size ∧ (tree.node (tree.nodeAt offset)).isLeaf ∧
      tree.Holds offset (tree.nodeAt offset) := by
  have hl := h.cuts.length
  rw [Array.length_toList] at hl
  refine h.holds_nodeAtFrom (h.size_eq ▸ layout.size_pos) ⟨?_, ?_⟩ (Nat.le_add_left _ _)
  · rw [h.filed.node_eq, h.covers.head_start, h.cuts.zero, h.coherent.byteAt_zero]
    exact Nat.zero_le _
  · rwa [h.filed.node_eq, h.covers.head_stop, hl, h.coherent.byteAt_length]

/-- The node at the start of a token is its leaf. -/
theorem nodeAt_token {token : Token} (ht : token ∈ tree.tokens.toList) :
    tree.nodeAt token.start < tree.size ∧ (tree.node (tree.nodeAt token.start)).isLeaf ∧
      tree.Holds token.start (tree.nodeAt token.start) ∧ (tree.node (tree.nodeAt token.start)).start = token.start := by
  obtain ⟨k, hk⟩ := mem_iff_getElem?.1 ht
  have hp := (List.getElem?_eq_some_iff.1 hk).1
  have hm : ∀ {first last}, first < last → last ≤ tree.tokens.toList.length →
      tree.source.byteAt (cut first) < tree.source.byteAt (cut last) := by
    intro first last hlt hl
    have hn := h.cuts.le (show first + 1 ≤ last from hlt) hl
    exact h.coherent.byteAt_lt (Nat.lt_of_lt_of_le (h.cuts.lt (Nat.lt_of_lt_of_le hlt hl)) hn)
      (h.cuts.length ▸ h.cuts.le hl (Nat.le_refl _))
  have he := hm hp (Nat.le_refl _)
  rw [h.cuts.length, h.coherent.byteAt_length, ← h.cuts.start_eq hk] at he
  obtain ⟨hs, hlf, hh⟩ := h.holds_nodeAt he
  refine ⟨hs, hlf, hh, ?_⟩
  obtain ⟨place, hlf⟩ := Option.isSome_iff_exists.1 hlf
  obtain ⟨hi, -, hr, -⟩ := h.leaf_eq hlf
  rw [← Array.length_toList] at hi
  obtain ⟨hst, hsto⟩ := Prod.mk.inj hr
  rw [Holds, hst, hsto, h.cuts.start_eq hk] at hh
  -- tokens do not overlap
  obtain rfl : place = k := by
    rcases Nat.lt_trichotomy place k with hlt | heq | hlt
    · rcases Nat.eq_or_lt_of_le (show place + 1 ≤ k from hlt) with rfl | hlt
      · omega
      · have := hm hlt (Nat.le_of_lt hp)
        omega
    · exact heq
    · have := hm hlt (Nat.le_of_lt hi)
      omega
  rw [hst, h.cuts.start_eq hk]

/-! ## All ways -/

private theorem walk_eq_cons (hid : id < tree.size) : tree.walk id = id :: tree.descendants id := by
  obtain ⟨found, above, -, -, hf, -⟩ := h.exists_at hid
  have hs := found.size_pos
  rw [hf.walk_eq, hf.descendants_eq, ← range'_succ]
  congr 1
  omega

theorem children_of_isLeaf (hl : (tree.node id).isLeaf) : (tree.node id).children = [] := by
  obtain ⟨place, ht⟩ := Option.isSome_iff_exists.1 hl
  exact (h.leaf_eq ht).2.1

theorem lt_of_below (hb : tree.Below above id) : above < id := by
  induction hb with
  | single hc => exact (h.lt_size_of_mem_children hc).2
  | tail _ hc ih => exact Nat.lt_trans ih (h.lt_size_of_mem_children hc).2

theorem eq_of_isLeaf (hid : id < tree.size) (ho : other < tree.size) (hl : (tree.node id).isLeaf)
    (hl' : (tree.node other).isLeaf) (hh : tree.Holds offset id) (hh' : tree.Holds offset other) : id = other := by
  have ha := h.above_of_holds (h.children_of_isLeaf hl') ho hh' hid hh
  -- a leaf lies above nothing else
  rcases Relation.ReflTransGen.cases_head ha with heq | ⟨child, hc, -⟩
  · exact heq
  · rw [h.children_of_isLeaf hl] at hc
    cases hc

private theorem eq_nodeAt_iff (ho : offset < tree.source.size) (hid : id < tree.size) :
    id = tree.nodeAt offset ↔ (tree.node id).isLeaf ∧ tree.Holds offset id := by
  obtain ⟨hs, hl, hh⟩ := h.holds_nodeAt ho
  constructor
  · rintro rfl
    exact ⟨hl, hh⟩
  · rintro ⟨hl', hh'⟩
    exact h.eq_of_isLeaf hid hs hl' hl hh' hh

private theorem mem_ancestors_nodeAt_iff (ho : offset < tree.source.size) (hid : id < tree.size) :
    id ∈ tree.ancestors (tree.nodeAt offset) ↔ id ≠ tree.nodeAt offset ∧ tree.Holds offset id := by
  obtain ⟨hs, hl, hh⟩ := h.holds_nodeAt ho
  rw [h.mem_ancestors_iff]
  constructor
  · intro hb
    have hr := h.range_of_above hb.to_reflTransGen hs
    unfold Holds at hh ⊢
    exact ⟨Nat.ne_of_lt (h.lt_of_below hb), by omega, by omega⟩
  · rintro ⟨hne, hh'⟩
    have ha := h.above_of_holds (h.children_of_isLeaf hl) hs hh hid hh'
    exact (Relation.reflTransGen_iff_eq_or_transGen.1 ha).resolve_left fun heq => hne heq.symm

end Grown

/-- The ways through a tree agree: the descendants of a node are the nodes that have it for an ancestor, a walk goes
through a node and its descendants in increasing order, the leaves are those of the tokens, one behind the other, and
the node at a byte is the only leaf that holds it, with the other nodes that do so for ancestors. -/
structure Navigable (tree : Tree) : Prop where
  mem_descendants_iff : ∀ id target, target ∈ tree.descendants id ↔ id ∈ tree.ancestors target
  walk_eq : ∀ id < tree.size, tree.walk id = id :: tree.descendants id
  increasing : ∀ id < tree.size, (tree.walk id).Pairwise (· < ·)
  leaves_tokens : (tree.leaves 0).map (fun leaf => (tree.node leaf).token) = (List.range tree.tokens.size).map some
  leaves_ranges : Layout.Consecutive 0 tree.source.size ((tree.leaves 0).map tree.range)
  nodeAt_lt : ∀ offset < tree.source.size, tree.nodeAt offset < tree.size
  eq_nodeAt_iff : ∀ offset < tree.source.size, ∀ id < tree.size,
    id = tree.nodeAt offset ↔ (tree.node id).isLeaf ∧ tree.Holds offset id
  mem_ancestors_nodeAt_iff : ∀ offset < tree.source.size, ∀ id < tree.size,
    id ∈ tree.ancestors (tree.nodeAt offset) ↔
      id ≠ tree.nodeAt offset ∧ (tree.node id).start < (tree.node id).stop ∧ tree.Holds offset id

private theorem Grown.navigable {tree : Tree} {cut : Nat → Nat} {layout : Layout} (h : Grown tree cut layout) :
    tree.Navigable where
  mem_descendants_iff id target := by rw [h.mem_descendants_iff, h.mem_ancestors_iff]
  walk_eq _ hid := h.walk_eq_cons hid
  increasing id hid := by
    obtain ⟨found, above, -, -, hf, -⟩ := h.exists_at hid
    rw [hf.walk_eq]
    exact pairwise_lt_range'
  leaves_tokens := h.leaves_tokens
  leaves_ranges := h.leaves_ranges
  nodeAt_lt _ ho := (h.holds_nodeAt ho).1
  eq_nodeAt_iff _ ho _ hid := h.eq_nodeAt_iff ho hid
  mem_ancestors_nodeAt_iff offset ho id hid := by
    rw [h.mem_ancestors_nodeAt_iff ho hid]
    refine and_congr_right fun _ => ⟨fun hh => ⟨?_, hh⟩, fun hh => hh.2⟩
    exact Nat.lt_of_le_of_lt hh.1 hh.2

/-- The ways through the tree of any bytes, or any text, agree. -/
theorem parse_navigable {description : Grammar.Description} {grammar : Grammar}
    (hbuild : Grammar.build description = .ok grammar) {source : Source}
    (hsource : (∃ bytes, source = .ofBytes bytes) ∨ ∃ text, source = .ofText (Text.ofString text)) (path : String)
    (config : Config) :
    (parse grammar source path config).source = source ∧ (parse grammar source path config).Navigable := by
  have hc := Source.coherent_of_read hsource
  obtain ⟨cut, hg⟩ := grown_parse (Grammar.built_of_build hbuild).tabulated hc path config
  exact ⟨rfl, hg.navigable⟩

/-- A source of the cyclic grammar in which a token was skipped. -/
theorem navigable_of_loop : ∃ grammar, Grammar.build Grammar.loop = .ok grammar ∧
    (parse grammar (.ofText (Text.ofString "a?a")) defaultPath {}).Navigable := by
  obtain ⟨grammar, hb⟩ := Grammar.exists_build_loop
  exact ⟨grammar, hb, (parse_navigable hb (.inr ⟨"a?a", rfl⟩) _ _).2⟩

end Tree

end TreeLint
