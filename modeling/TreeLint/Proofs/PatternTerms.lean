import TreeLint.Proofs.GuardSources

/-!
# Patterns in two notations

A pattern can be written as text or as a form. A `Term` is a pattern that both notations have: the names, expressions
and guards in it can be written as text.

* `Pattern.Term.write`, `Pattern.Whole.write`: the text, with parentheses where an operator binds less tightly than its
  place asks for;
* `Pattern.Term.form`, `Pattern.Whole.form`: the form;
* `Pattern.Whole.meaning`: the shape that is meant, or the code of what is wrong with a guard;
* `Pattern.Whole.shapeOf_form`: the form is read as what is meant.
-/

namespace TreeLint

open List Predicate

namespace Pattern

structure KindName where
  text : String
  starts : text.toList.head?.any startsName
  inside : text.toList.all inKindName
  ne_wildcard : text ≠ "_"

structure CaptureName where
  text : String
  starts : text.toList.head?.any startsName
  inside : text.toList.all inName

/-- Whether a character comes after every backslash that is not itself escaped. -/
def closesEscapes : List Char → Bool
  | ['\\'] => false
  | '\\' :: _ :: rest => closesEscapes rest
  | _ :: rest => closesEscapes rest
  | [] => true

/-- An expression that can stand between slashes as it is. -/
structure RegexText where
  text : String
  ne_empty : text ≠ ""
  noSlash : '/' ∉ text.toList
  noBreak : '\n' ∉ text.toList
  closed : closesEscapes text.toList

/-- The text of a guard. It reads well, but may name functions and attributes that there are not. -/
structure GuardText where
  text : String
  reads : ∃ checked, predicateText.whole text.toList = .ok checked

def GuardText.write (guard : GuardText) : List Char :=
  ' ' :: ("where".toList ++ ' ' :: guard.text.toList)

/-- A pattern for one node, or an ellipsis. -/
inductive Term where
  | kind (name : KindName)
  | node (name : KindName) (items : List Term)
  | wildcard
  | ellipsis
  | capture (name : CaptureName) (inner : Term)
  | metavar (name : CaptureName)
  | text (value : String)
  | regex (source : RegexText)
  | oneOf (first second : Term) (others : List Term)
  | negation (inner : Term)
  | deep (inner : Term)
  | guarded (inner : Term) (guard : GuardText)

inductive Whole where
  | single (term : Term)
  | siblings (first : Term) (others : List Term) (guard : Option GuardText)

namespace Term

/-! ## Writing -/

/-- How tightly a term binds: alternations least, then guards, then everything else. -/
def level : Term → Nat
  | oneOf _ _ _ => 0
  | guarded _ _ => 1
  | _ => 2

def enclose (needed : Bool) (text : List Char) : List Char :=
  if needed then '(' :: (text ++ [')']) else text

mutual

def write : Term → List Char
  | kind name => name.text.toList
  | node name items => name.text.toList ++ '(' :: (", ".toList.intercalate (writes 0 items) ++ [')'])
  | wildcard => ['_']
  | ellipsis => "...".toList
  | capture name inner => name.text.toList ++ ':' :: ' ' :: enclose (inner.level < 2) inner.write
  | metavar name => '$' :: name.text.toList
  | text value => '"' :: (Sexp.escape value.toList ++ ['"'])
  | regex source => '/' :: (source.text.toList ++ ['/'])
  | oneOf first second others =>
    " | ".toList.intercalate (enclose (first.level < 1) first.write :: enclose (second.level < 1) second.write ::
      writes 1 others)
  | negation inner => '!' :: enclose (inner.level < 2) inner.write
  | deep inner => '>' :: '>' :: ' ' :: enclose (inner.level < 2) inner.write
  | guarded inner guard => enclose (inner.level < 2) inner.write ++ guard.write

/-- Terms as texts, each in parentheses if it binds less tightly than `least`. -/
def writes (least : Nat) : List Term → List (List Char)
  | [] => []
  | term :: terms => enclose (term.level < least) term.write :: writes least terms

end

/-- A term where one is needed that binds at least so tightly. -/
def writeAt (least : Nat) (term : Term) : List Char :=
  enclose (term.level < least) term.write

theorem writes_eq_map (least : Nat) (terms : List Term) : writes least terms = terms.map (writeAt least) := by
  induction terms with
  | nil => rfl
  | cons term terms ih => rw [writes, ih, map_cons, writeAt]

theorem writeAt_of_le {least : Nat} {term : Term} (h : least ≤ term.level) : term.writeAt least = term.write := by
  rw [writeAt, enclose, if_neg (by simpa using h)]

theorem writeAt_of_lt {least : Nat} {term : Term} (h : term.level < least) :
    term.writeAt least = '(' :: (term.write ++ [')']) := by
  rw [writeAt, enclose, if_pos (by simpa using h)]

theorem writeAt_zero (term : Term) : term.writeAt 0 = term.write :=
  writeAt_of_le (Nat.zero_le _)

mutual

def form : Term → Sexp
  | kind name => .symbol name.text
  | node name items => .list (.symbol "kind" :: .symbol name.text :: forms items)
  | wildcard => .symbol "_"
  | ellipsis => .symbol "..."
  | capture name inner => .list [.symbol "bind", .symbol name.text, inner.form]
  | metavar name => .symbol (String.ofList ('$' :: name.text.toList))
  | text value => .string value
  | regex source => .list [.symbol "re", .string source.text]
  | oneOf first second others => .list (.symbol "or" :: first.form :: second.form :: forms others)
  | negation inner => .list [.symbol "not", inner.form]
  | deep inner => .list [.symbol "deep", inner.form]
  | guarded inner guard => .list [.symbol "where", inner.form, .string guard.text]

def forms : List Term → List Sexp
  | [] => []
  | term :: terms => term.form :: forms terms

end

end Term

/-! ## Meaning -/

def GuardText.meaning (guard : GuardText) : Except (Stop Code) Predicate :=
  seenAs Predicate.bare Failure.code (Predicate.read guard.text)

namespace Term

mutual

/-- What a term means, or the code of what is wrong with its first guard with a fault. -/
def meaning : Term → Except (Stop Code) Shape
  | kind name => .ok (.kind name.text)
  | node name items => do return .node name.text (← meanings items)
  | wildcard => .ok .wildcard
  | ellipsis => .ok .ellipsis
  | capture name inner => do return .capture name.text (← inner.meaning)
  | metavar name => .ok (.metavar name.text)
  | text value => .ok (.text value)
  | regex source => .ok (.regex source.text)
  | oneOf first second others => do
    let first ← first.meaning
    let second ← second.meaning
    let others ← meanings others
    return .oneOf (first :: second :: others)
  | negation inner => do return .negation (← inner.meaning)
  | deep inner => do return .deep (← inner.meaning)
  | guarded inner guard => do
    let shape ← inner.meaning
    return .guarded shape (← guard.meaning)

def meanings : List Term → Except (Stop Code) (List Shape)
  | [] => .ok []
  | term :: terms => do
    let shape ← term.meaning
    let shapes ← meanings terms
    return shape :: shapes

end

def children : Term → List Term
  | node _ items => items
  | oneOf first second others => first :: second :: others
  | capture _ inner | negation inner | deep inner | guarded inner _ => [inner]
  | _ => []

/-- What holds of a term if it holds of those directly inside it holds of all. -/
theorem induction {motive : Term → Prop}
    (step : ∀ term : Term, (∀ child ∈ term.children, motive child) → motive term) (term : Term) : motive term := by
  have hon : ∀ {inner}, motive inner → ∀ child ∈ [inner], motive child := by
    intro inner hi child hc
    rwa [mem_singleton.1 hc]
  have hcn : ∀ {first others}, motive first → (∀ child ∈ others, motive child) →
      ∀ child ∈ first :: others, motive child := by
    intro first others hf ho child hc
    rcases mem_cons.1 hc with rfl | hc
    · exact hf
    · exact ho child hc
  have hn : ∀ child ∈ ([] : List Term), motive child := forall_mem_nil _
  exact @Term.rec motive (fun terms => ∀ term ∈ terms, motive term)
    (fun _ => step _ hn) (fun _ _ ih => step _ ih) (step _ hn) (step _ hn) (fun _ _ ih => step _ (hon ih))
    (fun _ => step _ hn) (fun _ => step _ hn) (fun _ => step _ hn)
    (fun _ _ _ hf hs ho => step _ (hcn hf (hcn hs ho)))
    (fun _ ih => step _ (hon ih)) (fun _ ih => step _ (hon ih)) (fun _ _ ih => step _ (hon ih)) hn
    (fun _ _ hf ho => hcn hf ho) term

theorem meaning_oneOf (first second : Term) (others : List Term) :
    (oneOf first second others).meaning = do return .oneOf (← meanings (first :: second :: others)) := by
  simp [meaning, meanings]

/-! ## Forms -/

theorem exists_eq_cons {word : List Char} (h : word.head?.any startsName) :
    ∃ c more, word = c :: more ∧ startsName c := by
  cases word with
  | nil => cases h
  | cons c more => exact ⟨c, more, rfl, by simpa using h⟩

theorem head?_ne_of_startsName {word : List Char} (h : word.head?.any startsName) {c : Char}
    (hc : startsName c = false) (rest : List Char) : (word ++ rest).head? ≠ some c := by
  obtain ⟨first, more, rfl, hf⟩ := exists_eq_cons h
  intro heq
  cases heq
  rw [hf] at hc
  cases hc

private theorem shapeOfSymbol_kind (name : KindName) : shapeOfSymbol name.text = .kind name.text := by
  have hne : ∀ c, startsName c = false → name.text.toList.head? ≠ some c := by
    intro c hc
    simpa using head?_ne_of_startsName name.starts hc []
  rw [shapeOfSymbol, if_neg (by simp [name.ne_wildcard]), if_neg]
  · split
    next c rest hl => exact absurd (by rw [hl]; rfl) (hne '$' (by decide))
    · rfl
  · intro h
    refine hne '.' (by decide) ?_
    rw [eq_of_beq h]
    rfl

private theorem shapeOfSymbol_metavar (name : CaptureName) :
    shapeOfSymbol (String.ofList ('$' :: name.text.toList)) = .metavar name.text := by
  obtain ⟨c, rest, hl, -⟩ := exists_eq_cons name.starts
  have hne : ∀ word : String, word.toList.head? ≠ some '$' → ¬ (String.ofList ('$' :: name.text.toList) == word) := by
    intro word hw h
    apply hw
    rw [← eq_of_beq h, String.toList_ofList]
    rfl
  rw [shapeOfSymbol, if_neg (hne _ (by decide)), if_neg (hne _ (by decide)), String.toList_ofList, hl]
  exact congrArg Shape.metavar (by rw [← hl, String.ofList_toList])

/-- What is read from the form of a term is what it means, at the top and elsewhere. -/
def FormReads (term : Term) : Prop :=
  ∀ top, term.meaning = seenAs Shape.bare Failure.code (shapeOf top term.form)

private theorem meanings_eq_shapesOf {terms : List Term} (h : ∀ term ∈ terms, FormReads term) :
    meanings terms = seenAs Shape.bareAll Failure.code (shapesOf (forms terms)) := by
  induction terms with
  | nil => rfl
  | cons term terms ih =>
    rw [forms, shapesOf, meanings, h term mem_cons_self false, ih (forall_mem_cons.1 h).2]
    exact seenAs_bind fun shape => seenAs_bind fun shapes => rfl

private theorem formReads (term : Term) : FormReads term := by
  induction term using Term.induction with
  | step term ih =>
    intro top
    cases term with
    | kind name => exact congrArg (fun shape : Shape => Except.ok shape.bare) (shapeOfSymbol_kind name).symm
    | node name items =>
      rw [meaning, @meanings_eq_shapesOf items ih]
      exact seenAs_bind fun shapes => rfl
    | wildcard | ellipsis | text | regex => rfl
    | metavar name => exact congrArg (fun shape : Shape => Except.ok shape.bare) (shapeOfSymbol_metavar name).symm
    | capture name inner | negation inner | deep inner =>
      rw [meaning, ih inner mem_cons_self false]
      exact seenAs_bind fun shape => rfl
    | oneOf first second others =>
      rw [meaning_oneOf, @meanings_eq_shapesOf (first :: second :: others) ih]
      exact seenAs_bind fun shapes => rfl
    | guarded inner guard =>
      rw [meaning, ih inner mem_cons_self top, GuardText.meaning]
      exact seenAs_bind fun shape => seenAs_bind fun pred => rfl

end Term

namespace Whole

def write : Whole → List Char
  | single term => term.write
  | siblings first others guard =>
    '[' :: (", ".toList.intercalate (Term.writes 0 (first :: others)) ++ ']' :: (guard.map GuardText.write).getD [])

def form : Whole → Sexp
  | single term => term.form
  | siblings first others none => .list (.symbol "seq" :: Term.forms (first :: others))
  | siblings first others (some guard) =>
    .list [.symbol "where", .list (.symbol "seq" :: Term.forms (first :: others)), .string guard.text]

/-- What a whole pattern means, or the code of what is wrong with its first guard with a fault. -/
def meaning : Whole → Except (Stop Code) Shape
  | single term => term.meaning
  | siblings first others none => do return .siblings (← Term.meanings (first :: others))
  | siblings first others (some guard) => do
    let shapes ← Term.meanings (first :: others)
    return .guarded (.siblings shapes) (← guard.meaning)

theorem meaning_eq_shapeOf (pattern : Whole) :
    pattern.meaning = seenAs Shape.bare Failure.code (shapeOf true pattern.form) := by
  cases pattern with
  | single term => exact term.formReads true
  | siblings first others guard =>
    have hs : (siblings first others none).meaning =
        seenAs Shape.bare Failure.code (shapeOf true (siblings first others none).form) := by
      rw [meaning, @Term.meanings_eq_shapesOf (first :: others) fun term _ => term.formReads]
      exact seenAs_bind fun shapes => rfl
    cases guard with
    | none => exact hs
    | some guard =>
      have hm : (siblings first others (some guard)).meaning = (do
          let shape ← (siblings first others none).meaning
          return .guarded shape (← guard.meaning)) := by
        simp [meaning]
      rw [hm, hs, GuardText.meaning]
      exact seenAs_bind fun shape => seenAs_bind fun pred => rfl

end Whole

end Pattern

end TreeLint
