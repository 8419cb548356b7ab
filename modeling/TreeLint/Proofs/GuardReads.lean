import TreeLint.Proofs.CheckedGrammar
import TreeLint.Proofs.PendingGuards

/-!
# Guards that read bound names

The evaluation of an expression can fail in many ways, but it misses a capture only where a name is read that stands for
nothing.

* `Predicate.Finds`: a computation of a value does not miss a capture;
* `Predicate.finds_evaluate`: a predicate does not if all names that it reads are bound;
* `Predicate.reads_only_references`: a predicate reads the captures that it declares and no others, so that the keys of
  the record tell all that its value depends on.
-/

namespace TreeLint

open List

namespace Predicate

/-- A computation of a value that does not miss a capture. -/
def Finds {α : Type} (outcome : Outcome α) : Prop :=
  ∀ name, outcome ≠ .error (.fault (.unbound name))

private theorem finds_ok {α : Type} (value : α) : Finds (.ok value) :=
  nofun

theorem Finds.bind {α β : Type} {first : Outcome α} {next : α → Outcome β} (hf : Finds first)
    (hn : ∀ value, Finds (next value)) : Finds (first >>= next) := by
  cases first with
  | ok value => exact hn value
  | error stop =>
    intro name heq
    cases heq
    exact hf name rfl

theorem Finds.map {α β : Type} {first : Outcome α} (hf : Finds first) (f : α → β) : Finds (f <$> first) := by
  cases first with
  | ok value => exact finds_ok _
  | error stop =>
    intro name heq
    cases heq
    exact hf name rfl

private theorem finds_failed {α : Type} {mishap : Mishap} (h : ∀ name, mishap ≠ .unbound name) :
    Finds (failed mishap : Outcome α) := by
  intro name heq
  cases heq
  exact h name rfl

private theorem finds_expectText (tree : Tree) (place : String) (value : Value) :
    Finds (value.expectText tree place) := by
  unfold Value.expectText
  split
  · exact finds_ok _
  · exact finds_failed nofun

private theorem finds_expectBool (place : String) (value : Value) : Finds (value.expectBool place) := by
  cases value with
  | bool => exact finds_ok _
  | _ => exact finds_failed nofun

private theorem finds_isFound (place : String) (pattern text : Text) : Finds (isFound place pattern text) := by
  unfold isFound
  split
  · exact finds_ok _
  next stop _ =>
    cases stop with
    | fault | breakdown => exact nofun

private theorem finds_equal (mark : String) (left right : Value) : Finds (left.equal mark right) := by
  unfold Value.equal
  split
  · exact finds_ok _
  · exact finds_failed nofun

private theorem finds_ordered (mark : String) (holds : Ordering → Bool) (left right : Value) :
    Finds (left.ordered mark holds right) := by
  unfold Value.ordered
  split
  · exact finds_ok _
  · exact finds_failed nofun

private theorem finds_isAmong (tree : Tree) (mark : String) (value : Value) (items : List Value) :
    Finds (isAmong tree mark value items) := by
  induction items with
  | nil => exact finds_ok _
  | cons item items ih =>
    refine (finds_equal mark value (item.asText tree)).bind fun same => ?_
    cases same with
    | true => exact finds_ok _
    | false => exact ih

private theorem finds_isMember (tree : Tree) (mark : String) (left right : Value) :
    Finds (isMember tree mark left right) := by
  cases right with
  | list items => exact finds_isAmong tree mark _ items
  | text text | capture binding => exact (finds_expectText tree mark _).bind fun _ => finds_ok _
  | _ => exact finds_failed nofun

private theorem finds_compareText (tree : Tree) (mark : String) {holds : Text → Text → Outcome Bool}
    (hh : ∀ text argument, Finds (holds text argument)) (left right : Value) :
    Finds (compareText tree mark holds left right) :=
  (finds_expectText tree mark left).bind fun _ => (finds_expectText tree mark right).bind fun _ => hh _ _

private theorem finds_comparison (tree : Tree) (comparison : Comparison) (left right : Value) :
    Finds (comparison.apply tree left right) := by
  cases comparison with
  | isIn => exact finds_isMember tree _ left right
  | notIn => exact (finds_isMember tree _ left right).map _
  | startsWith | endsWith | contains => exact finds_compareText tree _ (fun _ _ => finds_ok _) left right
  | found => exact finds_compareText tree _ (fun _ _ => finds_isFound _ _ _) left right
  | equal => exact finds_equal _ _ _
  | unequal => exact (finds_equal _ _ _).map _
  | less | atMost | greater | atLeast => exact finds_ordered _ _ _ _

private theorem finds_ofCapture (tree : Tree) (function : Function) (aspect : Attribute) (value : Value) :
    Finds (function.ofCapture tree aspect value) := by
  refine Finds.bind ?_ fun _ => finds_ok _
  cases value with
  | capture => exact finds_ok _
  | _ => exact finds_failed nofun

private theorem finds_function (tree : Tree) (function : Function) (arguments : List Value) :
    Finds (function.apply tree arguments) := by
  have ht : ∀ (function : Function) (change : Text → Text) (value : Value),
      Finds (function.ofText tree change value) :=
    fun _ _ value => (finds_expectText tree _ value).bind fun _ => finds_ok _
  cases function with
  | len =>
    unfold Function.apply lengthOf
    dsimp only
    split
    · exact finds_ok _
    · exact finds_ok _
    · exact finds_ok _
    · exact finds_failed nofun
  | count | text | kind | line | column => exact finds_ofCapture tree _ _ _
  | lower | upper | trim => exact ht _ _ _
  | found =>
    exact (finds_expectText tree _ _).bind fun _ => (finds_expectText tree _ _).bind fun _ =>
      (finds_isFound _ _ _).bind fun _ => finds_ok _

variable {tree : Tree} {bindings : Bindings}

private theorem finds_operands {exprs : List Expr} (he : ∀ expr ∈ exprs, (∀ name ∈ expr.references, bindings.has name) →
      Finds (expr.evaluate tree bindings)) (h : ∀ name ∈ referencesOfAll exprs, bindings.has name) :
    Finds (evaluateAll tree bindings exprs) ∧ Finds (allHold tree bindings exprs) ∧
      Finds (oneHolds tree bindings exprs) := by
  induction exprs with
  | nil => exact ⟨finds_ok _, finds_ok _, finds_ok _⟩
  | cons expr exprs ih =>
    have hf := he expr mem_cons_self fun name hn => h name (mem_append_left _ hn)
    obtain ⟨ha, hc, hd⟩ := ih (forall_mem_cons.1 he).2 fun name hn => h name (mem_append_right _ hn)
    refine ⟨hf.bind fun _ => ha.bind fun _ => finds_ok _, hf.bind fun _ => (finds_expectBool _ _).bind fun truth => ?_,
      hf.bind fun _ => (finds_expectBool _ _).bind fun truth => ?_⟩
    · cases truth with
      | false => exact finds_ok _
      | true => exact hc
    · cases truth with
      | true => exact finds_ok _
      | false => exact hd

theorem Expr.finds_evaluate (expr : Expr) (h : ∀ name ∈ expr.references, bindings.has name) :
    Finds (expr.evaluate tree bindings) := by
  induction expr using Expr.induction with
  | constant => exact finds_ok _
  | list items ih => exact (finds_operands ih h).1.bind fun _ => finds_ok _
  | capture name aspect =>
    obtain ⟨binding, hb⟩ := Option.isSome_iff_exists.1 (h name (mem_singleton_self name))
    rw [evaluate, hb]
    cases aspect <;> exact finds_ok _
  | call function arguments ih => exact (finds_operands ih h).1.bind fun _ => finds_function tree function _
  | compare comparison left right ihleft ihright =>
    refine (ihleft fun name hn => h name (mem_append_left _ hn)).bind fun _ => ?_
    refine (ihright fun name hn => h name (mem_append_right _ hn)).bind fun _ => ?_
    exact (finds_comparison tree comparison _ _).bind fun _ => finds_ok _
  | conj operands ih => exact (finds_operands ih h).2.1.bind fun _ => finds_ok _
  | disj operands ih => exact (finds_operands ih h).2.2.bind fun _ => finds_ok _
  | neg operand ih => exact (ih h).bind fun _ => (finds_expectBool _ _).bind fun _ => finds_ok _

/-- A predicate over bound names misses no capture. -/
theorem finds_evaluate (pred : Predicate) (h : ∀ name ∈ pred.references, bindings.has name) :
    Finds (pred.evaluate tree bindings) := by
  refine (pred.expr.finds_evaluate fun name hn => h name (mem_nameSet.2 hn)).bind fun value => ?_
  cases value with
  | bool => exact finds_ok _
  | _ => exact finds_failed nofun

/-- Where the captures that a predicate declares stand for the same, or for nothing, its value is the same or it fails in
the same way. Where they are all bound, it misses none. So guards with one key have one verdict, and a guard in a pending
chain has the same verdict under the bindings that are kept of a key. -/
theorem reads_only_references (predicate : Predicate) (tree : Tree) :
    (∀ bindings others : Bindings, (∀ name ∈ predicate.references, bindings.get? name = others.get? name) →
      predicate.evaluate tree bindings = predicate.evaluate tree others) ∧
    (∀ bindings : Bindings, (∀ name ∈ predicate.references, bindings.has name) →
      ∀ name, predicate.evaluate tree bindings ≠ .error (.fault (.unbound name))) ∧
    (∀ id bindings others, Match.GuardKey.mk id (predicate.references.map (Bindings.get? bindings)) =
        ⟨id, predicate.references.map (Bindings.get? others)⟩ →
      predicate.evaluate tree bindings = predicate.evaluate tree others) ∧
    ∀ bindings reads pending, predicate.references ⊆ Match.readsOf pending →
      predicate.evaluate tree (Match.relevant bindings reads pending) = predicate.evaluate tree bindings := by
  refine ⟨fun _ _ => predicate.evaluate_congr, fun _ => predicate.finds_evaluate, fun _ _ _ h => ?_, fun _ _ _ hs => ?_⟩
  · exact predicate.evaluate_congr (map_inj_left.1 (Match.GuardKey.mk.inj h).2)
  · exact predicate.evaluate_congr fun name hn => Match.get?_relevant (.inr (hs hn))

/-- Another order of the bindings and one more of them make no difference to the predicate
`$x.count == 1 and not $y.count == 1`, and another binding of a name that it reads does. -/
theorem reads_only_two : ∃ grammar tree predicate, Grammar.build Grammar.loop = .ok grammar ∧
    tree = Tree.parse grammar (.ofText []) Tree.defaultPath {} ∧
    predicate = Predicate.mk "" (.conj [.compare .equal (.capture "x" (some .count)) (.constant (.number (.int 1))),
      .neg (.compare .equal (.capture "y" (some .count)) (.constant (.number (.int 1))))]) ∧
    predicate.evaluate tree [("y", .run []), ("x", .one 0)] = .ok true ∧
    predicate.evaluate tree [("x", .one 0), ("y", .run []), ("z", .one 0)] = .ok true ∧
    predicate.evaluate tree [("y", .one 0), ("x", .one 0)] = .ok false ∧
    predicate.evaluate tree [("y", .run []), ("x", .one 0)] ≠ .error (.fault (.unbound "x")) := by
  obtain ⟨grammar, hb⟩ := Grammar.exists_build_loop
  refine ⟨grammar, _, _, hb, rfl, rfl, rfl, ?_, rfl, (reads_only_references _ _).2.1 _ (fun name hn => ?_) "x"⟩
  refine ((reads_only_references _ _).1 _ [("y", .run []), ("x", .one 0)] fun name hn => ?_).trans rfl
  all_goals
    have hm : name = "x" ∨ name = "y" := by simpa [Expr.references, referencesOfAll] using mem_nameSet.1 hn
    rcases hm with rfl | rfl <;> rfl

end Predicate

end TreeLint
