import TreeLint.Proofs.Bindings

/-!
# What pending guards say

* `Predicate.evaluate_congr`: the value of a predicate depends only on the captures that it reads;
* `Match.isAccepted`: whether a pending chain holds, decided all at once and without a record;
* `Match.isAccepted_add_eq`: deciding some of its guards early changes nothing, since names are bound only once.
-/

namespace TreeLint

open List

namespace Predicate

/-- What holds of an expression if it holds of its operands holds of all expressions. -/
theorem Expr.induction {motive : Expr → Prop} (constant : ∀ value, motive (.constant value))
    (list : ∀ items, (∀ item ∈ items, motive item) → motive (.list items))
    (capture : ∀ name aspect, motive (.capture name aspect))
    (call : ∀ function arguments, (∀ argument ∈ arguments, motive argument) → motive (.call function arguments))
    (compare : ∀ comparison left right, motive left → motive right → motive (.compare comparison left right))
    (conj : ∀ operands, (∀ operand ∈ operands, motive operand) → motive (.conj operands))
    (disj : ∀ operands, (∀ operand ∈ operands, motive operand) → motive (.disj operands))
    (neg : ∀ operand, motive operand → motive (.neg operand)) (expr : Expr) : motive expr :=
  @Expr.rec motive (fun exprs => ∀ expr ∈ exprs, motive expr) constant list capture call compare conj disj neg
    (forall_mem_nil _)
    (fun _ _ hf hr _ hm => (mem_cons.1 hm).elim (fun heq => heq ▸ hf) (hr _)) expr

def Agree (names : List String) (bindings others : Bindings) : Prop :=
  ∀ name ∈ names, bindings.get? name = others.get? name

theorem Agree.left {names more : List String} {bindings others : Bindings} (h : Agree (names ++ more) bindings others) :
    Agree names bindings others :=
  fun name hn => h name (mem_append_left _ hn)

theorem Agree.right {names more : List String} {bindings others : Bindings}
    (h : Agree (names ++ more) bindings others) : Agree more bindings others :=
  fun name hn => h name (mem_append_right _ hn)

variable {tree : Tree} {bindings others : Bindings}

/-- Operands are taken together as their values are, which depend on no other captures. -/
private theorem operands_congr {exprs : List Expr} (he : ∀ expr ∈ exprs, Agree expr.references bindings others →
      expr.evaluate tree bindings = expr.evaluate tree others) (h : Agree (referencesOfAll exprs) bindings others) :
    evaluateAll tree bindings exprs = evaluateAll tree others exprs ∧
      allHold tree bindings exprs = allHold tree others exprs ∧
      oneHolds tree bindings exprs = oneHolds tree others exprs := by
  induction exprs with
  | nil => exact ⟨rfl, rfl, rfl⟩
  | cons expr exprs ih =>
    obtain ⟨ha, hc, hd⟩ := ih (forall_mem_cons.1 he).2 h.right
    simp only [evaluateAll, allHold, oneHolds, he expr mem_cons_self h.left, ha, hc, hd, and_self]

/-- The value of an expression depends only on the captures that it reads. -/
theorem Expr.evaluate_congr (expr : Expr) (h : Agree expr.references bindings others) :
    expr.evaluate tree bindings = expr.evaluate tree others := by
  induction expr using Expr.induction with
  | constant => rfl
  | list items ih | call function arguments ih => rw [evaluate, evaluate, (operands_congr ih h).1]
  | capture name aspect => rw [evaluate, evaluate, h name (mem_singleton_self name)]
  | compare comparison left right ihleft ihright =>
    rw [evaluate, evaluate, ihleft h.left, ihright h.right]
  | conj operands ih => rw [evaluate, evaluate, (operands_congr ih h).2.1]
  | disj operands ih => rw [evaluate, evaluate, (operands_congr ih h).2.2]
  | neg operand ih => rw [evaluate, evaluate, ih h]

theorem evaluate_congr (pred : Predicate) (h : Agree pred.references bindings others) :
    pred.evaluate tree bindings = pred.evaluate tree others := by
  have hexp : Agree pred.expr.references bindings others :=
    fun name hn => h name (mem_nameSet.2 hn)
  rw [evaluate, evaluate, pred.expr.evaluate_congr hexp]

def isTrue (predicate : Predicate) (tree : Tree) (bindings : Bindings) : Bool :=
  match predicate.evaluate tree bindings with
  | .ok truth => truth
  | .error _ => false

theorem isTrue_congr (pred : Predicate) (h : Agree pred.references bindings others) :
    pred.isTrue tree bindings = pred.isTrue tree others := by
  rw [isTrue, isTrue, pred.evaluate_congr h]

end Predicate

namespace Match

open Predicate (Agree)

def isAccepted (tree : Tree) : List Pending → Bindings → Bool
  | [], _ => true
  | .guard _ predicate :: rest, bindings => predicate.isTrue tree bindings && isAccepted tree rest bindings
  | .bind name node :: rest, bindings => isAccepted tree rest (bindings.put name (.one node))

/-- What is left of a pending chain once all guards over bound names are decided, or nothing if one of them fails. -/
def leftOver (tree : Tree) : List Pending → Bindings → Option (List Pending)
  | [], _ => some []
  | .guard id predicate :: rest, bindings =>
    if predicate.references.all bindings.has then
      if predicate.isTrue tree bindings then leftOver tree rest bindings else none
    else (leftOver tree rest bindings).map (.guard id predicate :: ·)
  | .bind name node :: rest, bindings =>
    (leftOver tree rest (bindings.put name (.one node))).map fun left =>
      if left.isEmpty then [] else .bind name node :: left

variable {tree : Tree} {pending : List Pending} {bindings others : Bindings}

/-- Whether a pending chain holds depends only on the captures that it reads. -/
theorem isAccepted_congr (h : Agree (readsOf pending) bindings others) :
    isAccepted tree pending bindings = isAccepted tree pending others := by
  induction pending generalizing bindings others with
  | nil => rfl
  | cons first rest ih =>
    cases first with
    | guard id pred => rw [isAccepted, isAccepted, pred.isTrue_congr h.left, ih h.right]
    | bind name node =>
      rw [isAccepted, isAccepted]
      refine ih fun other ho => ?_
      rw [Bindings.get?_put, Bindings.get?_put]
      split
      · rfl
      next hne => exact h other (mem_filter.2 ⟨ho, by simpa using hne⟩)

/-- Bindings with others that agree with them wherever they say something. -/
def Extends (bindings later : Bindings) : Prop :=
  ∀ name, bindings.has name → later.get? name = bindings.get? name

theorem extends_add (h : ∀ name ∈ others.names, name ∉ bindings.names) : Extends bindings (bindings.add others) :=
  fun _ hn => Bindings.get?_add_of_not_mem fun hm => h _ hm (Bindings.has_iff.1 hn)

theorem Extends.put {later : Bindings} (h : Extends bindings later) (name : String) (binding : Binding) :
    Extends (bindings.put name binding) (later.put name binding) := by
  intro other ho
  rw [Bindings.has, Bindings.get?_put] at ho
  rw [Bindings.get?_put, Bindings.get?_put]
  split
  · rfl
  next hne =>
    rw [if_neg hne] at ho
    exact h other ho

/-- Guards that are decided early are decided as they would be later. -/
private theorem isAccepted_eq_of_extends {later : Bindings} (h : Extends bindings later) :
    isAccepted tree pending later =
      ((leftOver tree pending bindings).map (isAccepted tree · later)).getD false := by
  induction pending generalizing bindings later with
  | nil => rfl
  | cons first rest ih =>
    cases first with
    | guard id pred =>
      rw [isAccepted, leftOver, ih h]
      split
      next hb =>
        -- the captures that it reads are bound already and stay what they are
        have hs : pred.isTrue tree later = pred.isTrue tree bindings :=
          pred.isTrue_congr fun name hn => h name (all_eq_true.1 hb name hn)
        rw [hs]
        cases pred.isTrue tree bindings <;> rfl
      · cases leftOver tree rest bindings with
        | none => exact Bool.and_false _
        | some left => rfl
    | bind name node =>
      rw [isAccepted, leftOver, ih (h.put name (.one node))]
      cases leftOver tree rest (bindings.put name (.one node)) with
      | none => rfl
      | some left =>
        cases left with
        | nil | cons => rfl

theorem isAccepted_add_eq (h : ∀ name ∈ others.names, name ∉ bindings.names) :
    isAccepted tree pending (bindings.add others) =
      ((leftOver tree pending bindings).map (isAccepted tree · (bindings.add others))).getD false :=
  isAccepted_eq_of_extends (extends_add h)

end Match

end TreeLint
