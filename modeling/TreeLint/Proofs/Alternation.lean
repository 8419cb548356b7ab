import TreeLint.Proofs.AnchorKinds
import TreeLint.Proofs.GuardSources
import TreeLint.Proofs.Satisfaction

/-!
# Alternation

A choice between two patterns matches where one of them does, and as the first does where both do. Which nodes are tried
depends on both: a side that may match nodes of any kind takes the trivia from the other.

* `Pattern.same_of_check`: what a shape is checked to matches the same wherever the shape stands;
* `either_of_branches`: at a single node, a choice gives what the first side gives, or else the second;
* `alternation_is_union`: what this means for whole searches;
* `blank_lost_in_alternation`: a blank that is found alone and lost in a choice.
-/

namespace TreeLint

open List

open Match (Plain.matchNode Plain.matchOptions Plain.matchItems Plain.lengths runBindings)

namespace Pattern

namespace Instr

/-- Two instructions that differ in their numbers only: they bind and match the same. -/
structure Same (first second : Instr) : Prop where
  isEllipsis_eq : first.isEllipsis = second.isEllipsis
  runName_eq : first.runName? = second.runName?
  mayBind_eq : first.mayBind = second.mayBind
  surelyBinds_eq : first.surelyBinds = second.surelyBinds
  kindsMatched_eq : first.kindsMatched = second.kindsMatched
  matchNode_eq : ∀ tree node bindings check,
    Plain.matchNode tree first node bindings check = Plain.matchNode tree second node bindings check

/-- Two lists of instructions that bind and match the same. -/
structure SameAll (first second : List Instr) : Prop where
  isEmpty_eq : first.isEmpty = second.isEmpty
  mayBind_eq : mayBindOfAll first = mayBindOfAll second
  surelyBind_eq : surelyBindOfAll first = surelyBindOfAll second
  surelyBindEach_eq : surelyBindOfEach first = surelyBindOfEach second
  kindsMatched_eq : kindsMatchedOfAll first = kindsMatchedOfAll second
  matchOptions_eq : ∀ tree node bindings check,
    Plain.matchOptions tree first node bindings check = Plain.matchOptions tree second node bindings check
  matchItems_eq : ∀ tree anchored siblings bindings check,
    Plain.matchItems tree anchored first siblings bindings check =
      Plain.matchItems tree anchored second siblings bindings check

private theorem sameAll_nil : SameAll [] [] :=
  ⟨rfl, rfl, rfl, rfl, rfl, fun _ _ _ _ => rfl, fun _ _ _ _ _ => rfl⟩

theorem SameAll.cons {first second : Instr} {others rest : List Instr} (hf : Same first second)
    (ho : SameAll others rest) : SameAll (first :: others) (second :: rest) where
  isEmpty_eq := rfl
  mayBind_eq := by rw [mayBindOfAll, mayBindOfAll, hf.mayBind_eq, ho.mayBind_eq]
  surelyBind_eq := by rw [surelyBindOfAll, surelyBindOfAll, hf.surelyBinds_eq, ho.surelyBind_eq]
  surelyBindEach_eq := by
    have he := ho.isEmpty_eq
    cases others with
    | nil =>
      cases rest with
      | nil => exact hf.surelyBinds_eq
      | cons => cases he
    | cons =>
      cases rest with
      | nil => cases he
      | cons =>
        rw [surelyBindOfEach_cons_cons, surelyBindOfEach_cons_cons, hf.surelyBinds_eq, ho.surelyBindEach_eq]
  kindsMatched_eq := by rw [kindsMatchedOfAll, kindsMatchedOfAll, hf.kindsMatched_eq, ho.kindsMatched_eq]
  matchOptions_eq tree node bindings check := by
    rw [Plain.matchOptions, Plain.matchOptions, hf.matchNode_eq, ho.matchOptions_eq]
  matchItems_eq tree anchored siblings bindings check := by
    have hr : runBindings first = runBindings second := by
      funext taken
      rw [runBindings, runBindings, hf.runName_eq]
    have hl : Plain.lengths anchored others = Plain.lengths anchored rest := by
      funext count
      rw [Plain.lengths, Plain.lengths, ho.isEmpty_eq]
    by_cases hi : first.isEllipsis
    · rw [Match.Plain.matchItems_ellipsis hi, Match.Plain.matchItems_ellipsis (hf.isEllipsis_eq ▸ hi)]
      simp only [ho.matchItems_eq, hr, hl]
    · have hot : ¬ second.isEllipsis := hf.isEllipsis_eq ▸ hi
      cases siblings with
      | nil => rw [Match.Plain.matchItems_fixed_nil hi, Match.Plain.matchItems_fixed_nil hot]
      | cons sibling siblings =>
        rw [Match.Plain.matchItems_fixed_cons hi, Match.Plain.matchItems_fixed_cons hot, hf.matchNode_eq]
        simp only [ho.matchItems_eq]

end Instr

open Instr (Same SameAll sameAll_nil)

variable {grammar : Grammar} {sure possible : List String} {id other : Nat} {first second : List Instr}

/-- Whatever a shape is checked to in two places is the same. -/
def ChecksSame (grammar : Grammar) (shape : Shape) : Prop :=
  ∀ {sure possible : List String} {inList : Bool} {id other : Nat} {first second : Instr},
    check grammar sure possible inList id shape = .ok first →
      check grammar sure possible inList other shape = .ok second → Same first second

private theorem checkItems_same {items : List Shape} (hi : ∀ item ∈ items, ChecksSame grammar item)
    (hf : checkItems grammar sure possible id items = .ok first)
    (hs : checkItems grammar sure possible other items = .ok second) : SameAll first second := by
  induction items generalizing sure possible id other first second with
  | nil =>
    cases hf
    cases hs
    exact sameAll_nil
  | cons item items ih =>
    obtain ⟨head, rest, hh, hr, rfl⟩ := checkItems_cons hf
    obtain ⟨he', rest', hh', hr', rfl⟩ := checkItems_cons hs
    have hsa := hi item mem_cons_self hh hh'
    rw [← hsa.surelyBinds_eq, ← hsa.mayBind_eq] at hr'
    exact .cons hsa (ih (forall_mem_cons.1 hi).2 hr hr')

private theorem checkOptions_same {options : List Shape} (ho : ∀ option ∈ options, ChecksSame grammar option)
    (hf : checkOptions grammar sure possible id options = .ok first)
    (hs : checkOptions grammar sure possible other options = .ok second) : SameAll first second := by
  induction options generalizing id other first second with
  | nil =>
    cases hf
    cases hs
    exact sameAll_nil
  | cons option options ih =>
    obtain ⟨head, rest, hh, hr, rfl⟩ := checkOptions_cons hf
    obtain ⟨he', rest', hh', hr', rfl⟩ := checkOptions_cons hs
    exact .cons (ho option mem_cons_self hh hh') (ih (forall_mem_cons.1 ho).2 hr hr')

private theorem isEllipsis_capture {inner : Instr} (h : inner.isEllipsis = false) (id : Nat) (name : String) :
    (Instr.capture id name inner).isEllipsis = false := by
  cases inner with
  | ellipsis => cases h
  | _ => rfl

theorem same_of_check (grammar : Grammar) (shape : Shape) : ChecksSame grammar shape := by
  induction shape using Shape.induction with
  | step shape ih =>
    intro sure possible inList id other first second hf hs
    have hst := step_of_check hs
    cases step_of_check hf with
    | kind hk =>
      cases hst with
      | kind hk' =>
        cases hk.symm.trans hk'
        exact ⟨rfl, rfl, rfl, rfl, rfl, fun _ _ _ _ => rfl⟩
    | regex hr =>
      cases hst with
      | regex hr' =>
        cases hr.symm.trans hr'
        exact ⟨rfl, rfl, rfl, rfl, rfl, fun _ _ _ _ => rfl⟩
    | wildcard | text | ellipsis =>
      cases hst
      exact ⟨rfl, rfl, rfl, rfl, rfl, fun _ _ _ _ => rfl⟩
    | backref hsr =>
      cases hst with
      | backref => exact ⟨rfl, rfl, rfl, rfl, rfl, fun _ _ _ _ => rfl⟩
      | metavar hu => exact absurd hsr hu
    | metavar hu =>
      cases hst with
      | backref hsr => exact absurd hsr hu
      | metavar => exact ⟨rfl, rfl, rfl, rfl, rfl, fun _ _ _ _ => rfl⟩
    | run =>
      cases hst with
      | run => exact ⟨rfl, rfl, rfl, rfl, rfl, fun _ _ _ _ => rfl⟩
      | capture _ hi' => cases hi'
    | node hk hi =>
      cases hst with
      | node hk' hit' =>
        cases hk.symm.trans hk'
        have ha := checkItems_same ih hi hit'
        refine ⟨rfl, rfl, ha.mayBind_eq, ha.surelyBind_eq, rfl, fun tree node bindings check => ?_⟩
        rw [Plain.matchNode, Plain.matchNode, ha.matchItems_eq]
    | @capture name inner checked _ hinn =>
      cases hst with
      | run => cases hinn
      | capture _ hi' =>
        have hsa := ih inner mem_cons_self hinn hi'
        refine ⟨?_, rfl, congrArg (· ++ [name]) hsa.mayBind_eq, congrArg (· ++ [name]) hsa.surelyBinds_eq,
          hsa.kindsMatched_eq, fun tree node bindings check => ?_⟩
        · rw [isEllipsis_capture (checks grammar _ _ _ _ _ _ hinn).scoped.not_isEllipsis,
            isEllipsis_capture (checks grammar _ _ _ _ _ _ hi').scoped.not_isEllipsis]
        · rw [Plain.matchNode, Plain.matchNode, hsa.matchNode_eq]
    | oneOf ho =>
      cases hst with
      | oneOf ho' =>
        have ha := checkOptions_same ih ho ho'
        refine ⟨rfl, rfl, ha.mayBind_eq, ha.surelyBindEach_eq, congrArg Instr.unionKinds ha.kindsMatched_eq,
          fun tree node bindings check => ?_⟩
        rw [Plain.matchNode, Plain.matchNode, ha.matchOptions_eq]
    | negation hinn =>
      cases hst with
      | negation hi' =>
        have hsa := ih _ mem_cons_self hinn hi'
        refine ⟨rfl, rfl, rfl, rfl, rfl, fun tree node bindings check => ?_⟩
        rw [Plain.matchNode, Plain.matchNode, hsa.matchNode_eq]
    | deep hinn =>
      cases hst with
      | deep hi' =>
        have hsa := ih _ mem_cons_self hinn hi'
        refine ⟨rfl, rfl, hsa.mayBind_eq, hsa.surelyBinds_eq, rfl, fun tree node bindings check => ?_⟩
        rw [Plain.matchNode, Plain.matchNode]
        simp only [hsa.matchNode_eq]
    | guarded hinn =>
      cases hst with
      | guarded hi' =>
        have hsa := ih _ mem_cons_self hinn hi'
        refine ⟨rfl, rfl, hsa.mayBind_eq, hsa.surelyBinds_eq, hsa.kindsMatched_eq, fun tree node bindings check => ?_⟩
        rw [Plain.matchNode, Plain.matchNode, hsa.matchNode_eq]

/-! ## Sides of a choice -/

/-- The options that a side adds to a choice: the side itself, or its own options if it is a choice too. -/
def Branches (shape : Shape) (options : List Shape) : Prop :=
  options = [shape] ∨ shape = .oneOf options

private theorem checkOptions_append {left right : List Shape} {instrs : List Instr}
    (h : checkOptions grammar sure possible id (left ++ right) = .ok instrs) :
    ∃ first second next, checkOptions grammar sure possible id left = .ok first ∧
      checkOptions grammar sure possible next right = .ok second ∧ instrs = first ++ second := by
  induction left generalizing id instrs with
  | nil => exact ⟨[], instrs, id, rfl, h, rfl⟩
  | cons option left ih =>
    obtain ⟨head, rest, hh, hr, rfl⟩ := checkOptions_cons h
    obtain ⟨first, second, next, hf, hs, rfl⟩ := ih hr
    refine ⟨head :: first, second, next, ?_, hs, rfl⟩
    have he : option ≠ .ellipsis := by
      rintro rfl
      cases hh
    rw [checkOptions.eq_3 _ _ _ _ _ _ he]
    simp only [bind_eq_ok_iff, pure_eq_ok_iff]
    exact ⟨head, hh, first, hf, rfl⟩

private theorem checkTop_eq_check {shape : Shape} {instr : Instr} (h : check grammar [] [] false id shape = .ok instr) :
    checkTop grammar shape = check grammar [] [] false 0 shape := by
  unfold checkTop
  split
  · cases h
  · cases h
  · cases h
  · rfl

private theorem isSome_unionKinds (lists : List (Option (List Nat))) :
    (Instr.unionKinds lists).isSome = lists.all Option.isSome := by
  induction lists with
  | nil => rfl
  | cons kinds lists ih =>
    cases kinds with
    | none => rfl
    | some kinds => rw [Instr.unionKinds, Option.isSome_map, ih, all_cons, Option.isSome_some, Bool.true_and]

/-- A pattern for single nodes that matches as a choice among options does. -/
structure Stands (side : Pattern) (options : List Instr) : Prop where
  isSequence_eq : side.isSequence = false
  isSome_eq : side.anchorKinds.isSome = (Instr.kindsMatchedOfAll options).all Option.isSome
  matchNode_eq : ∀ tree node bindings check,
    Plain.matchNode tree side.root node bindings check = Plain.matchOptions tree options node bindings check

private theorem stands_of_branches {source : String} {shape : Shape} {options : List Shape} {side : Pattern}
    {instrs : List Instr} (hb : Branches shape options) (hs : compileShape grammar source shape = .ok side)
    (ho : checkOptions grammar [] [] id options = .ok instrs) : Stands side instrs := by
  have hr := checkTop_of_compileShape hs
  rcases hb with rfl | rfl
  · obtain ⟨head, rest, hh, hrs, rfl⟩ := checkOptions_cons ho
    cases hrs
    rw [checkTop_eq_check hh] at hr
    have hsa := same_of_check grammar shape hr hh
    refine ⟨?_, ?_, fun tree node bindings check => ?_⟩
    · have hsc := (checks grammar shape _ _ _ _ _ hr).scoped
      unfold isSequence
      split
      next hsb =>
        rw [hsb] at hsc
        exact hsc.elim
      · rfl
    · rw [anchorKinds, Option.isSome_map, hsa.kindsMatched_eq, Instr.kindsMatchedOfAll, Instr.kindsMatchedOfAll,
        all_cons, all_nil, Bool.and_true]
    · rw [hsa.matchNode_eq, Plain.matchOptions, Plain.matchOptions, Option.or_none]
  · have hc : check grammar [] [] false 0 (.oneOf options) = .ok side.root := hr
    simp only [check, bind_eq_ok_iff, pure_eq_ok_iff] at hc
    obtain ⟨others, hot, hch⟩ := hc
    have ha := checkOptions_same (fun option _ => same_of_check grammar option) hot ho
    refine ⟨?_, ?_, fun tree node bindings check => ?_⟩
    · rw [isSequence, ← hch]
    · rw [anchorKinds, Option.isSome_map, ← hch, Instr.kindsMatched, isSome_unionKinds, ha.kindsMatched_eq]
    · rw [← hch, Plain.matchNode, ha.matchOptions_eq]

end Pattern

namespace Match

open Pattern (Instr Shape Branches compileShape)

variable {tree : Tree} {first second both pattern : Pattern}

namespace Plain

private theorem matchOptions_append (left right : List Instr) (node : Nat) (bindings : Bindings)
    (check : Bindings → Bool) :
    matchOptions tree (left ++ right) node bindings check =
      (matchOptions tree left node bindings check).or (matchOptions tree right node bindings check) := by
  induction left with
  | nil => rw [nil_append, matchOptions, Option.none_or]
  | cons option left ih => rw [cons_append, matchOptions, matchOptions, ih, Option.or_assoc]

def anchors (pattern : Pattern) (tree : Tree) : List Nat :=
  (run pattern tree).map (·.anchor)

private theorem mem_run (hn : pattern.isSequence = false) {found : Match} : found ∈ run pattern tree ↔
      found.anchor ∈ searched pattern tree ∧ atNode tree pattern.root found.anchor = some found := by
  rw [run_eq hn, mem_filterMap]
  constructor
  · intro h
    obtain ⟨node, hs, hf⟩ := h
    rw [(eq_of_atNode hf).1]
    exact ⟨hs, hf⟩
  · exact fun h => ⟨_, h⟩

private theorem mem_anchors (hn : pattern.isSequence = false) {node : Nat} :
    node ∈ anchors pattern tree ↔ node ∈ searched pattern tree ∧ (atNode tree pattern.root node).isSome := by
  rw [anchors, run_eq hn, mem_map]
  constructor
  · intro h
    obtain ⟨found, hf, rfl⟩ := h
    obtain ⟨hs, hat⟩ := (mem_run hn).1 (run_eq hn tree ▸ hf)
    exact ⟨hs, Option.isSome_of_eq_some hat⟩
  · intro h
    obtain ⟨found, hf⟩ := Option.isSome_iff_exists.1 h.2
    exact ⟨found, mem_filterMap.2 ⟨node, h.1, hf⟩, (eq_of_atNode hf).1⟩

end Plain

/-- A pattern that is a choice between two others, all for single nodes. -/
structure Either (first second both : Pattern) : Prop where
  first_node : first.isSequence = false
  second_node : second.isSequence = false
  both_node : both.isSequence = false
  isSome_eq : both.anchorKinds.isSome = (first.anchorKinds.isSome && second.anchorKinds.isSome)
  atNode_eq : ∀ tree node, Plain.atNode tree both.root node =
    (Plain.atNode tree first.root node).or (Plain.atNode tree second.root node)

variable {grammar : Grammar} {firstSource secondSource source : String} {firstShape secondShape : Shape}
  {left right : List Shape}

theorem either_of_branches (hl : Branches firstShape left) (hr : Branches secondShape right)
    (hf : compileShape grammar firstSource firstShape = .ok first)
    (hs : compileShape grammar secondSource secondShape = .ok second)
    (hb : compileShape grammar source (.oneOf (left ++ right)) = .ok both) : Either first second both := by
  have hc : Pattern.check grammar [] [] false 0 (.oneOf (left ++ right)) = .ok both.root :=
    Pattern.checkTop_of_compileShape hb
  simp only [Pattern.check, bind_eq_ok_iff, pure_eq_ok_iff] at hc
  obtain ⟨instrs, hi, hch⟩ := hc
  have hst := Pattern.stands_of_branches (.inr rfl) hb hi
  obtain ⟨firstInstrs, secondInstrs, next, hfr, hsc, rfl⟩ := Pattern.checkOptions_append hi
  have ho := Pattern.stands_of_branches hl hf hfr
  have ht := Pattern.stands_of_branches hr hs hsc
  refine ⟨ho.isSequence_eq, ht.isSequence_eq, hst.isSequence_eq, ?_, fun tree node => ?_⟩
  · rw [hst.isSome_eq, ho.isSome_eq, ht.isSome_eq, kindsMatchedOfAll_eq_map, kindsMatchedOfAll_eq_map,
      kindsMatchedOfAll_eq_map, map_append, all_append]
  · rw [Plain.atNode, Plain.atNode, Plain.atNode, hst.matchNode_eq, ho.matchNode_eq, ht.matchNode_eq,
      Plain.matchOptions_append, Option.map_or]

/-- A choice matches where a side does, save at trivia when the kinds of one side are not known. -/
private theorem Either.mem_anchors_iff (h : Either first second both) {anchor : Nat} :
    anchor ∈ Plain.anchors both tree ↔
      (anchor ∈ Plain.anchors first tree ∨ anchor ∈ Plain.anchors second tree) ∧
        ((first.anchorKinds.isSome ∧ second.anchorKinds.isSome) ∨ (tree.node anchor).trivia = false) := by
  rw [Plain.mem_anchors h.both_node, Plain.mem_anchors h.first_node, Plain.mem_anchors h.second_node, mem_searched,
    mem_searched, mem_searched, h.atNode_eq, h.isSome_eq, Bool.and_eq_true, Option.isSome_or, Bool.or_eq_true]
  tauto

/-- After any calls, a choice between two patterns for single nodes is found where one of them is found, unless the
evaluation of a guard breaks down; but trivia are found only if both sides are of known kinds. Where the first side is
found, the choice has the match of the first side. -/
theorem alternation_is_union (hleft : Branches firstShape left) (hright : Branches secondShape right)
    (hfirst : compileShape grammar firstSource firstShape = .ok first)
    (hsecond : compileShape grammar secondSource secondShape = .ok second)
    (hboth : compileShape grammar source (.oneOf (left ++ right)) = .ok both) (tree : Tree) :
    (∀ pattern ∈ [first, second, both], ∀ calls, (trace pattern tree (recordAfter pattern tree calls)).Follows
      pattern.root tree (Plain.run pattern tree)) ∧
    (∀ anchor, anchor ∈ Plain.anchors both tree ↔
      (anchor ∈ Plain.anchors first tree ∨ anchor ∈ Plain.anchors second tree) ∧
        ((first.anchorKinds.isSome ∧ second.anchorKinds.isSome) ∨ (tree.node anchor).trivia = false)) ∧
    ∀ found ∈ Plain.run both tree, ∀ other ∈ Plain.run first tree, found.anchor = other.anchor → found = other := by
  have he := either_of_branches hleft hright hfirst hsecond hboth
  refine ⟨fun pattern hp calls => ?_, fun anchor => he.mem_anchors_iff, fun found hf other ho heq => ?_⟩
  · have hfr : Pattern.Formed pattern.root := by
      simp only [mem_cons, not_mem_nil, or_false] at hp
      rcases hp with rfl | rfl | rfl
      · exact Pattern.formed_of_compileShape hfirst
      · exact Pattern.formed_of_compileShape hsecond
      · exact Pattern.formed_of_compileShape hboth
    exact trace_follows hfr (valid_recordAfter hfr calls)
  · have hat := ((Plain.mem_run he.both_node).1 hf).2
    rw [he.atNode_eq, heq, ((Plain.mem_run he.first_node).1 ho).2, Option.some_or] at hat
    exact (Option.some.inj hat).symm

/-- A choice of letters on one side, and captured nodes of any kind on the other. -/
theorem alternation_is_union_of_letters : ∃ grammar tree first second both, Grammar.build Grammar.loop = .ok grammar ∧
    tree = Tree.parse grammar (.ofText (Text.ofString "a")) Tree.defaultPath {} ∧
    Branches (.oneOf [.text "a", .text "b"]) [.text "a", .text "b"] ∧
    Branches (.capture "x" .wildcard) [.capture "x" .wildcard] ∧
    compileShape grammar "" (.oneOf [.text "a", .text "b"]) = .ok first ∧
    compileShape grammar "" (.capture "x" .wildcard) = .ok second ∧
    compileShape grammar "" (.oneOf [.text "a", .text "b", .capture "x" .wildcard]) = .ok both ∧
    (∀ anchor, anchor ∈ Plain.anchors both tree ↔
      (anchor ∈ Plain.anchors first tree ∨ anchor ∈ Plain.anchors second tree) ∧
        ((first.anchorKinds.isSome ∧ second.anchorKinds.isSome) ∨ (tree.node anchor).trivia = false)) ∧
    ∀ found ∈ Plain.run both tree, ∀ other ∈ Plain.run first tree, found.anchor = other.anchor → found = other := by
  obtain ⟨grammar, hb⟩ := Grammar.exists_build_loop
  have hf : ∃ first, compileShape grammar "" (.oneOf [.text "a", .text "b"]) = .ok first := ⟨_, rfl⟩
  have hs : ∃ second, compileShape grammar "" (.capture "x" .wildcard) = .ok second := ⟨_, rfl⟩
  have hbt : ∃ both,
      compileShape grammar "" (.oneOf ([.text "a", .text "b"] ++ [.capture "x" .wildcard])) = .ok both := ⟨_, rfl⟩
  obtain ⟨first, hf⟩ := hf
  obtain ⟨second, hs⟩ := hs
  obtain ⟨both, hbt⟩ := hbt
  exact ⟨grammar, _, first, second, both, hb, rfl, .inr rfl, .inl rfl, hf, hs, hbt,
    (alternation_is_union (.inr rfl) (.inl rfl) hf hs hbt _).2⟩

private theorem run_of_unconditional (hf : Pattern.Formed pattern.root) (hfr : pattern.root.Unconditional)
    (tree : Tree) :
    run pattern tree = .ok (Plain.run pattern tree) := by
  have hfl : (trace pattern tree).Follows pattern.root tree (Plain.run pattern tree) :=
    trace_follows hf Record.valid_empty
  have hn := hfl.ends (not_breaks_of_unconditional hfr)
  rw [run, Trace.matches, hn]
  exact congrArg Except.ok (hfl.complete hn)

/-- A blank is found by its kind, but not by a choice between its kind and a text. -/
theorem blank_lost_in_alternation : ∃ grammar tree first second both, Grammar.build silent = .ok grammar ∧
    tree = Tree.parse grammar (.ofText (Text.ofString " ")) Tree.defaultPath {} ∧
    compileShape grammar "whitespace" (.kind Grammar.whitespaceKind) = .ok first ∧
    compileShape grammar "\"zzz\"" (.text "zzz") = .ok second ∧
    compileShape grammar "whitespace | \"zzz\"" (.oneOf [.kind Grammar.whitespaceKind, .text "zzz"]) = .ok both ∧
    ∃ ofFirst ofBoth, run first tree = .ok ofFirst ∧ run both tree = .ok ofBoth ∧
      ∃ found ∈ ofFirst, ∀ other ∈ ofBoth, other.anchor ≠ found.anchor := by
  have hok : (Grammar.build silent).isOk = true := by decide +kernel
  obtain ⟨grammar, hb⟩ := exists_eq_ok hok
  have hbl := Grammar.built_of_build hb
  obtain ⟨leaf, hl, ⟨hk, ht⟩, -⟩ := exists_blank_leaf hbl
  have hkn := Tree.kindId?_node hbl (Source.encoded_ofText _) Tree.defaultPath {} hl
  rw [hk] at hkn
  generalize htr : Tree.parse grammar (.ofText (Text.ofString " ")) Tree.defaultPath {} = tree at *
  have hf : compileShape grammar "whitespace" (.kind Grammar.whitespaceKind) =
      .ok ⟨"whitespace", .kind 0 Grammar.whitespaceKind (tree.node leaf).kindId, grammar.name⟩ := by
    simp only [compileShape, Pattern.checkTop, Pattern.check, hkn]
  have hbt : compileShape grammar "whitespace | \"zzz\"" (.oneOf [.kind Grammar.whitespaceKind, .text "zzz"]) =
      .ok ⟨"whitespace | \"zzz\"", .oneOf 0 [.kind 1 Grammar.whitespaceKind (tree.node leaf).kindId, .text 2 "zzz"],
        grammar.name⟩ := by
    simp only [compileShape, Pattern.checkTop, Pattern.check, Pattern.checkOptions, hkn]
    rfl
  have hlf : leaf ∈ Plain.anchors ⟨"whitespace", .kind 0 Grammar.whitespaceKind (tree.node leaf).kindId,
      grammar.name⟩ tree := by
    refine (Plain.mem_anchors rfl).2 ⟨mem_searched.2 ⟨hl, .inl rfl⟩, ?_⟩
    simp [Plain.atNode, Plain.matchNode, Plain.accepted]
  obtain ⟨found, hfn, rfl⟩ := mem_map.1 hlf
  refine ⟨grammar, tree, _, _, _, hb, htr.symm, hf, rfl, hbt, _, _,
    run_of_unconditional (Pattern.formed_of_compileShape hf) ?_ tree,
    run_of_unconditional (Pattern.formed_of_compileShape hbt) ?_ tree, found, hfn, fun other ho heq => ?_⟩
  · simp [Instr.Unconditional, Instr.parts, Instr.looksBack]
  · simp [Instr.Unconditional, Instr.parts, Instr.partsOfAll, Instr.looksBack]
  · -- the text may be found at nodes of any kind, so trivia are not searched
    have hs := mem_searched.1 ((Plain.mem_run rfl).1 ho).1
    rw [heq, ht] at hs
    exact hs.2.elim Bool.false_ne_true Bool.false_ne_true.symm

end Match

end TreeLint
