import Mathlib.Data.List.Forall2
import TreeLint.Proofs.CheckedGrammar
import TreeLint.Proofs.PendingGuards

/-!
# Equality of lists

Two lists are compared item by item, but not as the items themselves are: a capture among the items is not read as its
text, and is equal to nothing.

* `Predicate.Expr.Lonely`: expressions that are not equal to themselves among the items of a list;
* `Predicate.lists_compared`: when lists are equal, and which expressions are equal to themselves.
-/

namespace TreeLint

open List

namespace Predicate

/-- A capture that is not asked for an attribute. -/
def Expr.IsBare (expr : Expr) : Prop :=
  ∃ name, expr = .capture name none

inductive Expr.Lonely : Expr → Prop
  | capture (name : String) : Lonely (.capture name none)
  | item {items : List Expr} {item : Expr} (hm : item ∈ items) (h : Lonely item) : Lonely (.list items)

private theorem lonely_list_iff {items : List Expr} : (Expr.list items).Lonely ↔ ∃ item ∈ items, item.Lonely := by
  constructor
  · rintro (_ | ⟨hm, h⟩)
    exact ⟨_, hm, h⟩
  · rintro ⟨item, hm, h⟩
    exact .item hm h

/-! ## Values -/

inductive Value.Simple : Value → Prop
  | text (value : Text) : Simple (.text value)
  | bool (value : Bool) : Simple (.bool value)
  | int (value : Int) : Simple (.number (.int value))

private theorem simple_attributeValue (tree : Tree) (binding : Binding) (aspect : Attribute) :
    (attributeValue tree binding aspect).Simple := by
  cases aspect <;> constructor

private theorem simple_lengthOf {tree : Tree} {value length : Value} (h : lengthOf tree value = .ok length) :
    length.Simple := by
  cases value <;> cases h <;> constructor

private theorem simple_apply {tree : Tree} {function : Function} {arguments : List Value} {value : Value}
    (h : function.apply tree arguments = .ok value) : value.Simple := by
  have hc (aspect : Attribute) (first : Value) (h : function.ofCapture tree aspect first = .ok value) :
      value.Simple := by
    rw [Function.ofCapture, bind_eq_ok_iff] at h
    obtain ⟨binding, _, h⟩ := h
    cases h
    exact simple_attributeValue tree binding aspect
  have ht (change : Text → Text) (first : Value) (h : function.ofText tree change first = .ok value) :
      value.Simple := by
    rw [Function.ofText, bind_eq_ok_iff] at h
    obtain ⟨text, _, h⟩ := h
    cases h
    exact .text _
  cases function with
  | len => exact simple_lengthOf h
  | count | text | kind | line | column => exact hc _ _ h
  | lower | upper | trim => exact ht _ _ h
  | found =>
    simp only [Function.apply, bind_eq_ok_iff] at h
    obtain ⟨_, _, _, _, _, _, h⟩ := h
    cases h
    exact .bool _

private theorem equals_self {number : Number} (h : number.isNaN = false) : number.equals number = true := by
  have hc (a : Int) : (some (compare a a) == some Ordering.eq) = true := by simp
  cases number with
  | int value => exact hc _
  | double value =>
    cases value with
    | nan => cases h
    | infinite negative => cases negative <;> rfl
    | finite negative m e => exact hc _

private theorem Value.Simple.same_self {value : Value} (h : value.Simple) : value.same value = true := by
  cases h with
  | text | bool => simp [Value.same]
  | int value => exact equals_self rfl

private theorem sameAll_iff {values others : List Value} :
    Value.sameAll values others = true ↔ Forall₂ (fun value other => value.same other = true) values others := by
  induction values generalizing others with
  | nil => cases others <;> simp [Value.sameAll]
  | cons value values ih =>
    cases others with
    | nil => simp [Value.sameAll]
    | cons other others => rw [Value.sameAll, Bool.and_eq_true, ih, forall₂_cons]

/-! ## What expressions give -/

variable {tree : Tree} {bindings : Bindings} {expr : Expr} {value : Value}

private theorem forall₂_of_evaluateAll {exprs : List Expr} {values : List Value}
    (h : evaluateAll tree bindings exprs = .ok values) :
    Forall₂ (fun expr value => expr.evaluate tree bindings = .ok value) exprs values := by
  induction exprs generalizing values with
  | nil =>
    cases h
    exact .nil
  | cons expr exprs ih =>
    rw [evaluateAll, bind_eq_ok_iff] at h
    obtain ⟨value, hv, h⟩ := h
    obtain ⟨others, ho, h⟩ := bind_eq_ok_iff.1 h
    cases h
    exact .cons hv (ih ho)

private theorem evaluate_list {items : List Expr} (h : (Expr.list items).evaluate tree bindings = .ok value) :
    ∃ values, value = .list values ∧
      Forall₂ (fun item value => item.evaluate tree bindings = .ok value) items values := by
  rw [Expr.evaluate, bind_eq_ok_iff] at h
  obtain ⟨values, hv, h⟩ := h
  cases h
  exact ⟨values, rfl, forall₂_of_evaluateAll hv⟩

inductive Gives (tree : Tree) (bindings : Bindings) : Expr → Value → Prop
  | constant (value : Constant) : Gives tree bindings (.constant value) value.value
  | capture (name : String) (binding : Binding) : Gives tree bindings (.capture name none) (.capture binding)
  | list {items : List Expr} {values : List Value}
    (h : Forall₂ (fun item value => item.evaluate tree bindings = .ok value) items values) :
    Gives tree bindings (.list items) (.list values)
  | other {expr : Expr} {value : Value} (hl : ¬ expr.Lonely) (hs : value.Simple) : Gives tree bindings expr value

private theorem Expr.gives (h : expr.evaluate tree bindings = .ok value) : Gives tree bindings expr value := by
  cases expr with
  | constant found =>
    cases h
    exact .constant found
  | list items =>
    obtain ⟨values, rfl, hv⟩ := evaluate_list h
    exact .list hv
  | capture name aspect =>
    rw [Expr.evaluate] at h
    cases hb : bindings.get? name with
    | none =>
      rw [hb] at h
      cases h
    | some binding =>
      rw [hb] at h
      cases aspect with
      | none =>
        cases h
        exact .capture name binding
      | some aspect =>
        cases h
        exact .other (by intro hl; cases hl) (simple_attributeValue tree binding aspect)
  | call function arguments =>
    rw [Expr.evaluate, bind_eq_ok_iff] at h
    obtain ⟨values, _, h⟩ := h
    exact .other (by intro hl; cases hl) (simple_apply h)
  | compare comparison left right =>
    simp only [Expr.evaluate, bind_eq_ok_iff, pure_eq_ok_iff] at h
    obtain ⟨_, _, _, _, _, _, rfl⟩ := h
    exact .other (by intro hl; cases hl) (.bool _)
  | conj operands | disj operands =>
    simp only [Expr.evaluate, bind_eq_ok_iff, pure_eq_ok_iff] at h
    obtain ⟨_, _, rfl⟩ := h
    exact .other (by intro hl; cases hl) (.bool _)
  | neg operand =>
    simp only [Expr.evaluate, bind_eq_ok_iff, pure_eq_ok_iff] at h
    obtain ⟨_, _, _, _, rfl⟩ := h
    exact .other (by intro hl; cases hl) (.bool _)

private theorem Expr.isBare_iff (h : expr.evaluate tree bindings = .ok value) :
    expr.IsBare ↔ ∃ binding, value = .capture binding := by
  constructor
  · rintro ⟨name, rfl⟩
    cases Expr.gives h with
    | capture name binding => exact ⟨binding, rfl⟩
    | other hl => exact absurd (.capture name) hl
  · rintro ⟨binding, rfl⟩
    generalize hv : Value.capture binding = value at h
    cases Expr.gives h with
    | constant found => cases found <;> cases hv
    | capture name binding => exact ⟨name, rfl⟩
    | list => cases hv
    | other _ hs => cases hs <;> cases hv

private theorem asText_eq_self (h : expr.evaluate tree bindings = .ok value) (hb : ¬ expr.IsBare) :
    value.asText tree = value := by
  cases value with
  | capture binding => exact absurd ((Expr.isBare_iff h).2 ⟨binding, rfl⟩) hb
  | _ => rfl

private theorem forall_iff_of_forall₂ {items : List Expr} {values : List Value} {holds : Value → Prop}
    {fits : Expr → Prop}
    (hv : Forall₂ (fun item value => item.evaluate tree bindings = .ok value) items values)
    (hi : ∀ item ∈ items, ∀ value, item.evaluate tree bindings = .ok value → (holds value ↔ fits item)) :
    (∀ value ∈ values, holds value) ↔ ∀ item ∈ items, fits item := by
  induction hv with
  | nil => simp
  | cons hv _ ih =>
    rw [forall_mem_cons] at hi
    rw [forall_mem_cons, forall_mem_cons, ih hi.2, hi.1 _ hv]

/-- An item is equal to itself in a list unless it is lonely, if that is so of the items that it has itself. -/
private theorem same_self_iff_of_items
    (hi : ∀ items, expr = .list items → ∀ item ∈ items, ∀ value, item.evaluate tree bindings = .ok value →
      (value.same value = true ↔ ¬ item.Lonely))
    (h : expr.evaluate tree bindings = .ok value) : value.same value = true ↔ ¬ expr.Lonely := by
  cases Expr.gives h with
  | constant found =>
    cases found with
    | text text | bool truth => exact iff_of_true (by simp [Constant.value, Value.same]) (by intro hl; cases hl)
    | number number real => exact iff_of_true (equals_self real) (by intro hl; cases hl)
  | capture name binding => exact iff_of_false (by simp [Value.same]) (not_not_intro (.capture name))
  | @list items values hv =>
    rw [Value.same, sameAll_iff, forall₂_same, forall_iff_of_forall₂ hv (hi items rfl)]
    simp [lonely_list_iff]
  | other hl hs => exact iff_of_true hs.same_self hl

private theorem same_self_iff (h : expr.evaluate tree bindings = .ok value) :
    value.same value = true ↔ ¬ expr.Lonely := by
  induction expr using Expr.induction generalizing value with
  | list items ih =>
    refine same_self_iff_of_items (fun _ heq item hm _ => ?_) h
    cases heq
    exact ih item hm
  | _ => exact same_self_iff_of_items (fun _ heq => by cases heq) h

/-! ## Comparing -/

/-- Equality of two expressions gives a truth value, and inequality the other one. -/
def Compared (tree : Tree) (bindings : Bindings) (left right : Expr) (truth : Bool) : Prop :=
  (Expr.compare .equal left right).evaluate tree bindings = .ok (.bool truth) ∧
    (Expr.compare .unequal left right).evaluate tree bindings = .ok (.bool !truth)

section

variable {left right : Expr} {first second : Value} (hl : left.evaluate tree bindings = .ok first)
  (hr : right.evaluate tree bindings = .ok second)

include hl hr

private theorem evaluate_compare (comparison : Comparison) :
    (Expr.compare comparison left right).evaluate tree bindings = (comparison.apply tree first second).map .bool := by
  rw [Expr.evaluate, hl, hr]
  rfl

private theorem compared_of_type (ht : (first.asText tree).type = (second.asText tree).type) :
    Compared tree bindings left right ((first.asText tree).same (second.asText tree)) := by
  rw [Compared, evaluate_compare hl hr, evaluate_compare hl hr]
  simp [Comparison.apply, Value.equal, ht, Except.map]

/-- As items of lists, two expressions count as the same if they are equal and none of them is a capture. -/
private theorem same_iff (hc : ∃ value, (Expr.compare .equal left right).evaluate tree bindings = .ok value) :
    first.same second = true ↔ Compared tree bindings left right true ∧ ¬ left.IsBare ∧ ¬ right.IsBare := by
  by_cases hf : left.IsBare
  · obtain ⟨binding, rfl⟩ := (Expr.isBare_iff hl).1 hf
    simp [Value.same, hf]
  by_cases hs : right.IsBare
  · obtain ⟨binding, rfl⟩ := (Expr.isBare_iff hr).1 hs
    cases first <;> simp [Value.same, hs]
  simp only [Compared, evaluate_compare hl hr, Comparison.apply, asText_eq_self hl hf, asText_eq_self hr hs,
    Value.equal] at hc ⊢
  split at hc
  next ht => simp [ht, hf, hs, Except.map]
  next => exact absurd hc (by rintro ⟨value, ⟨⟩⟩)

end

private theorem forall₂_same_iff {lefts rights : List Expr} {firsts seconds : List Value}
    (hl : Forall₂ (fun left first => left.evaluate tree bindings = .ok first) lefts firsts)
    (hr : Forall₂ (fun right second => right.evaluate tree bindings = .ok second) rights seconds)
    (hc : ∀ pair ∈ lefts.zip rights, ∃ value, (Expr.compare .equal pair.1 pair.2).evaluate tree bindings = .ok value) :
    Forall₂ (fun first second => first.same second = true) firsts seconds ↔
      Forall₂ (fun left right => Compared tree bindings left right true ∧ ¬ left.IsBare ∧ ¬ right.IsBare)
        lefts rights := by
  induction hl generalizing rights seconds with
  | nil => cases hr <;> simp
  | cons hl _ ih =>
    cases hr with
    | nil => simp
    | cons hr hrs =>
      rw [zip_cons_cons, forall_mem_cons] at hc
      rw [forall₂_cons, forall₂_cons, ih hrs hc.2, same_iff hl hr hc.1]

/-- Lists are equal if their items are, one by one, and there is no capture among them. An expression is equal to itself
unless it is a list with a capture somewhere inside. -/
theorem lists_compared (tree : Tree) (bindings : Bindings) :
    (∀ {lefts rights : List Expr} {first second : Value}, (Expr.list lefts).evaluate tree bindings = .ok first →
      (Expr.list rights).evaluate tree bindings = .ok second →
      (∀ pair ∈ lefts.zip rights, ∃ value, (Expr.compare .equal pair.1 pair.2).evaluate tree bindings = .ok value) →
      ∃ truth, Compared tree bindings (.list lefts) (.list rights) truth ∧
        (truth = true ↔ Forall₂ (fun left right =>
          Compared tree bindings left right true ∧ ¬ left.IsBare ∧ ¬ right.IsBare) lefts rights)) ∧
      ∀ {expr : Expr} {value : Value}, expr.evaluate tree bindings = .ok value →
        ∃ truth, Compared tree bindings expr expr truth ∧ (truth = true ↔ expr.IsBare ∨ ¬ expr.Lonely) := by
  constructor
  · intro lefts rights first second hl hr hc
    obtain ⟨firsts, rfl, hls⟩ := evaluate_list hl
    obtain ⟨seconds, rfl, hrs⟩ := evaluate_list hr
    refine ⟨_, compared_of_type hl hr rfl, ?_⟩
    rw [← forall₂_same_iff hls hrs hc, ← sameAll_iff]
    rfl
  · intro expr value h
    refine ⟨_, compared_of_type h h rfl, ?_⟩
    by_cases hb : expr.IsBare
    · obtain ⟨binding, rfl⟩ := (Expr.isBare_iff h).1 hb
      simp [hb, Value.asText, Value.same]
    · rw [asText_eq_self h hb, same_self_iff h, or_iff_right hb]

/-- The list `[$x.text, [1, kind($x)]]` is equal to `[text($x), [1, $x.kind]]` and to itself. -/
theorem lists_compared_of_text : ∃ grammar, Grammar.build Grammar.loop = .ok grammar ∧
    Compared (.parse grammar (.ofText []) Tree.defaultPath {}) [("x", .one 0)]
      (.list [.capture "x" (some .text), .list [.constant (.number (.int 1)), .call .kind [.capture "x" none]]])
      (.list [.call .text [.capture "x" none], .list [.constant (.number (.int 1)), .capture "x" (some .kind)]])
      true ∧
    Compared (.parse grammar (.ofText []) Tree.defaultPath {}) [("x", .one 0)]
      (.list [.capture "x" (some .text), .list [.constant (.number (.int 1)), .call .kind [.capture "x" none]]])
      (.list [.capture "x" (some .text), .list [.constant (.number (.int 1)), .call .kind [.capture "x" none]]])
      true := by
  obtain ⟨grammar, hb⟩ := Grammar.exists_build_loop
  refine ⟨grammar, hb, ?_⟩
  generalize Tree.parse grammar (.ofText []) Tree.defaultPath {} = tree
  let bindings : Bindings := [("x", .one 0)]
  let lefts : List Expr := [.constant (.number (.int 1)), .call .kind [.capture "x" none]]
  let rights : List Expr := [.constant (.number (.int 1)), .capture "x" (some .kind)]
  have hc {left right : Expr} {value : Value} (hl : left.evaluate tree bindings = .ok value)
      (hr : right.evaluate tree bindings = .ok value) (hs : value.Simple) : Compared tree bindings left right true := by
    have ha : value.asText tree = value := by cases hs <;> rfl
    have h := compared_of_type hl hr rfl
    rwa [ha, hs.same_self] at h
  have hw {lefts rights : List Expr} {first second : Value} (hl : (Expr.list lefts).evaluate tree bindings = .ok first)
      (hr : (Expr.list rights).evaluate tree bindings = .ok second)
      (hi : Forall₂ (fun left right => Compared tree bindings left right true ∧ ¬ left.IsBare ∧ ¬ right.IsBare)
        lefts rights) : Compared tree bindings (.list lefts) (.list rights) true := by
    obtain ⟨truth, h, ht⟩ := (lists_compared tree bindings).1 hl hr fun pair hp => ⟨_, (forall₂_zip hi hp).1.1⟩
    rwa [ht.2 hi] at h
  have ho : Compared tree bindings (.constant (.number (.int 1))) (.constant (.number (.int 1))) true :=
    hc rfl rfl (.int 1)
  have hk : Compared tree bindings (.call .kind [.capture "x" none]) (.capture "x" (some .kind)) true :=
    hc rfl rfl (simple_attributeValue tree (.one 0) .kind)
  have ht : Compared tree bindings (.capture "x" (some .text)) (.call .text [.capture "x" none]) true :=
    hc rfl rfl (simple_attributeValue tree (.one 0) .text)
  have hi : Compared tree bindings (.list lefts) (.list rights) true :=
    hw rfl rfl (.cons ⟨ho, by simp [Expr.IsBare]⟩ (.cons ⟨hk, by simp [Expr.IsBare]⟩ .nil))
  refine ⟨hw rfl rfl (.cons ⟨ht, by simp [Expr.IsBare]⟩ (.cons ⟨hi, by simp [Expr.IsBare]⟩ .nil)), ?_⟩
  obtain ⟨truth, h, hs⟩ := (lists_compared tree bindings).2
    (rfl : (Expr.list [.capture "x" (some .text), .list lefts]).evaluate tree bindings = .ok _)
  rwa [hs.2 (.inr ?_)] at h
  simp only [lonely_list_iff, lefts, mem_cons, exists_eq_or_imp, not_mem_nil, or_false, exists_eq_left]
  rintro (hl | hl | hl) <;> cases hl

/-- A list of one capture is not equal to itself, although the capture is. -/
theorem capture_in_list_unequal : ∃ grammar, Grammar.build Grammar.loop = .ok grammar ∧
    Compared (.parse grammar (.ofText []) Tree.defaultPath {}) [("x", .one 0)] (.list [.capture "x" none])
      (.list [.capture "x" none]) false ∧
    Compared (.parse grammar (.ofText []) Tree.defaultPath {}) [("x", .one 0)] (.capture "x" none)
      (.capture "x" none) true := by
  obtain ⟨grammar, hb⟩ := Grammar.exists_build_loop
  refine ⟨grammar, hb, ?_⟩
  generalize Tree.parse grammar (.ofText []) Tree.defaultPath {} = tree
  have hc : (Expr.capture "x" none).evaluate tree [("x", .one 0)] = .ok (.capture (.one 0)) := rfl
  have hl : (Expr.list [.capture "x" none]).evaluate tree [("x", .one 0)] = .ok (.list [.capture (.one 0)]) := rfl
  refine ⟨compared_of_type hl hl rfl, ?_⟩
  simpa [Value.asText, Value.same] using compared_of_type hc hc rfl

end Predicate

end TreeLint
