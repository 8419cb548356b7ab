import Mathlib.Logic.Relation
import TreeLint.Proofs.IntegerText
import TreeLint.Proofs.PatternReading

/-!
# Predicates that are written and read

An expression is written with parentheses where it binds less tightly than its place asks for. What is written is read
as the same expression, unless an integer in it has more digits than are read.

* `Predicate.Expr.write`: the text of an expression;
* `Predicate.Expr.Expressible`: the expressions that the notation has;
* `Predicate.Follows`: what may follow an expression of a level;
* `Predicate.Readable`: an expression is read wherever it is written;
* `Predicate.read_write`: the text of an expression is read as that expression.
-/

namespace TreeLint

open List

variable {least : Nat} {name : String}

namespace Predicate

open Reading
open Pattern (CaptureName)
open Pattern.Term (enclose)

/-! ## Writing -/

def Constant.write : Constant → List Char
  | .text value => '"' :: (Sexp.escape value.toList ++ ['"'])
  | .bool value => if value then "true".toList else "false".toList
  | .number value _ => value.text.toList

def writeAspect : Option Attribute → List Char
  | none => []
  | some aspect => '.' :: aspect.name.toList

namespace Expr

/-- How tightly an expression binds: `or` least, then `and`, `not`, comparisons, and everything else. -/
def level : Expr → Nat
  | .disj _ => 0
  | .conj _ => 1
  | .neg _ => 2
  | .compare _ _ _ => 3
  | .constant _ | .list _ | .capture _ _ | .call _ _ => 4

mutual

def write : Expr → List Char
  | .constant value => value.write
  | .list items => '[' :: (", ".toList.intercalate (writes 0 items) ++ [']'])
  | .capture name aspect => '$' :: (name.toList ++ writeAspect aspect)
  | .call function arguments =>
    function.name.toList ++ '(' :: (", ".toList.intercalate (writes 0 arguments) ++ [')'])
  | .compare comparison left right =>
    enclose (left.level < 4) left.write ++
      ' ' :: (comparison.mark.toList ++ ' ' :: enclose (right.level < 4) right.write)
  | .conj operands => " and ".toList.intercalate (writes 2 operands)
  | .disj operands => " or ".toList.intercalate (writes 1 operands)
  | .neg operand => "not".toList ++ ' ' :: enclose (operand.level < 2) operand.write

/-- Expressions as texts, each in parentheses if it binds less tightly than `least`. -/
def writes (least : Nat) : List Expr → List (List Char)
  | [] => []
  | expr :: exprs => enclose (expr.level < least) expr.write :: writes least exprs

end

/-- An expression where one is needed that binds at least so tightly. -/
def writeAt (least : Nat) (expr : Expr) : List Char :=
  enclose (expr.level < least) expr.write

theorem writes_eq_map (least : Nat) (exprs : List Expr) : writes least exprs = exprs.map (writeAt least) := by
  induction exprs with
  | nil => rfl
  | cons expr exprs ih => rw [writes, ih, map_cons, writeAt]

variable {expr : Expr}

theorem writeAt_of_le (h : least ≤ expr.level) : expr.writeAt least = expr.write := by
  rw [writeAt, enclose, if_neg (by simpa using h)]

theorem writeAt_of_lt (h : expr.level < least) : expr.writeAt least = '(' :: (expr.write ++ [')']) := by
  rw [writeAt, enclose, if_pos (by simpa using h)]

/-- The expressions that the notation has. -/
inductive Expressible : Expr → Prop
  | text (value : String) : Expressible (.constant (.text value))
  | bool (value : Bool) : Expressible (.constant (.bool value))
  | int (value : Int) : Expressible (.constant (.number (.int value)))
  | list {items : List Expr} (hitems : ∀ item ∈ items, Expressible item) : Expressible (.list items)
  | capture (name : CaptureName) (aspect : Option Attribute) : Expressible (.capture name.text aspect)
  | call {function : Function} {arguments : List Expr} (harity : arguments.length = function.arity)
      (harguments : ∀ argument ∈ arguments, Expressible argument) : Expressible (.call function arguments)
  | compare (comparison : Comparison) {left right : Expr} (hleft : Expressible left) (hright : Expressible right) :
      Expressible (.compare comparison left right)
  | conj {operands : List Expr} (hcount : 2 ≤ operands.length) (hoperands : ∀ operand ∈ operands, Expressible operand) :
      Expressible (.conj operands)
  | disj {operands : List Expr} (hcount : 2 ≤ operands.length) (hoperands : ∀ operand ∈ operands, Expressible operand) :
      Expressible (.disj operands)
  | neg {operand : Expr} (hoperand : Expressible operand) : Expressible (.neg operand)

/-! ## Parts -/

/-- The expressions directly inside an expression. -/
def parts : Expr → List Expr
  | .constant _ | .capture _ _ => []
  | .list exprs | .call _ exprs | .conj exprs | .disj exprs => exprs
  | .compare _ left right => [left, right]
  | .neg operand => [operand]

def Occurs : Expr → Expr → Prop :=
  Relation.ReflTransGen fun inner outer => inner ∈ outer.parts

private theorem occurs_iff {part expr : Expr} :
    part.Occurs expr ↔ expr = part ∨ ∃ inner ∈ expr.parts, part.Occurs inner := by
  rw [Occurs, Relation.ReflTransGen.cases_tail_iff]
  simp only [and_comm]

private theorem induction_of_parts {motive : Expr → Prop}
    (step : ∀ expr : Expr, (∀ part ∈ expr.parts, motive part) → motive expr)
    (expr : Expr) : motive expr :=
  Expr.induction (fun _ => step _ (forall_mem_nil _)) (fun items => step (.list items))
    (fun _ _ => step _ (forall_mem_nil _)) (fun function arguments => step (.call function arguments))
    (fun _ _ _ hl hr => step _ (forall_mem_cons.2 ⟨hl, forall_mem_singleton.2 hr⟩))
    (fun operands => step (.conj operands)) (fun operands => step (.disj operands))
    (fun _ ho => step _ (forall_mem_singleton.2 ho)) expr

/-- No integer in an expression has more digits than are read. -/
def Fits (expr : Expr) : Prop :=
  ∀ value, (Expr.constant (.number (.int value))).Occurs expr → value.natAbs < 10 ^ maxIntDigits

private theorem fits_iff (h : ∀ value, expr ≠ .constant (.number (.int value))) :
    expr.Fits ↔ ∀ part ∈ expr.parts, part.Fits := by
  constructor
  · exact fun hf part hp value hv => hf value (occurs_iff.2 (.inr ⟨part, hp, hv⟩))
  · intro hf value hv
    obtain heq | ⟨part, hp, hv⟩ := occurs_iff.1 hv
    · exact absurd heq (h value)
    · exact hf part hp value hv

private theorem mem_referencesOfAll {exprs : List Expr} :
    name ∈ referencesOfAll exprs ↔ ∃ expr ∈ exprs, name ∈ expr.references := by
  induction exprs with
  | nil => simp [referencesOfAll]
  | cons expr exprs ih => rw [referencesOfAll, mem_append, ih, exists_mem_cons_iff]

private theorem mem_references_iff :
    name ∈ expr.references ↔ (∃ aspect, expr = .capture name aspect) ∨ ∃ part ∈ expr.parts, name ∈ part.references := by
  cases expr with
  | constant | capture | list | call | conj | disj => simp [references, parts, mem_referencesOfAll, eq_comm]
  | compare | neg => simp [references, parts]

private theorem mem_references_iff_occurs :
    name ∈ expr.references ↔ ∃ aspect, (Expr.capture name aspect).Occurs expr := by
  induction expr using induction_of_parts with
  | step expr ih =>
    rw [mem_references_iff]
    constructor
    · rintro (⟨aspect, heq⟩ | ⟨part, hp, hn⟩)
      · exact ⟨aspect, occurs_iff.2 (.inl heq)⟩
      · obtain ⟨aspect, ho⟩ := (ih part hp).1 hn
        exact ⟨aspect, occurs_iff.2 (.inr ⟨part, hp, ho⟩)⟩
    · rintro ⟨aspect, ho⟩
      obtain heq | ⟨part, hp, ho⟩ := occurs_iff.1 ho
      · exact .inl ⟨aspect, heq⟩
      · exact .inr ⟨part, hp, (ih part hp).2 ⟨aspect, ho⟩⟩

/-! ## What an expression is read as -/

open Classical in
/-- What the text of an expression is read as. -/
noncomputable def result (expr : Expr) : Checked Expr :=
  if expr.Fits then .ok expr else .error (.breakdown .number)

private theorem checkAll_result {exprs : List Expr} (h : ∀ expr ∈ exprs, expr.Fits) :
    checkAll (exprs.map result) = .ok exprs := by
  induction exprs with
  | nil => rfl
  | cons expr exprs ih =>
    obtain ⟨he, hexp⟩ := forall_mem_cons.1 h
    rw [map_cons, checkAll, ih hexp, result, if_pos he]
    rfl

private theorem checkAll_result_of_not {exprs : List Expr} (h : ¬ ∀ expr ∈ exprs, expr.Fits) :
    checkAll (exprs.map result) = .error (.breakdown .number) := by
  induction exprs with
  | nil => exact absurd (forall_mem_nil _) h
  | cons expr exprs ih =>
    rw [map_cons, checkAll, result]
    split
    next he =>
      rw [ih fun hexp => h (forall_mem_cons.2 ⟨he, hexp⟩)]
      rfl
    · rfl

/-- An expression is read as what comes of its parts. -/
private theorem bind_checkAll_result {next : List Expr → Checked Expr} (hn : next expr.parts = .ok expr)
    (h : ∀ value, expr ≠ .constant (.number (.int value))) :
    (checkAll (expr.parts.map result) >>= next) = expr.result := by
  rw [result]
  split
  next hf =>
    rw [checkAll_result ((fits_iff h).1 hf)]
    exact hn
  next hf =>
    rw [checkAll_result_of_not (mt (fits_iff h).2 hf)]
    rfl

private theorem map_checkAll_result {f : List Expr → Expr} (hf : f expr.parts = expr)
    (h : ∀ value, expr ≠ .constant (.number (.int value))) :
    (checkAll (expr.parts.map result)).map f = expr.result :=
  @bind_checkAll_result expr (fun exprs => .ok (f exprs)) (congrArg Except.ok hf) h

private theorem result_leaf (h : ∀ value, expr ≠ .constant (.number (.int value))) (hp : expr.parts = []) :
    expr.result = .ok expr := by
  rw [result, if_pos ((fits_iff h).2 (hp ▸ forall_mem_nil _))]

private theorem fits_int {value : Int} :
    (Expr.constant (.number (.int value))).Fits ↔ value.natAbs < 10 ^ maxIntDigits := by
  refine ⟨fun h => h value Relation.ReflTransGen.refl, fun h other ho => ?_⟩
  obtain heq | ⟨_, hp, -⟩ := occurs_iff.1 ho
  · cases heq
    exact h
  · cases hp

private theorem result_int (value : Int) : (Expr.constant (.number (.int value))).result =
    if value.natAbs < 10 ^ maxIntDigits then .ok (.constant (.number (.int value)))
    else .error (.breakdown .number) := by
  rw [result]
  simp only [fits_int]

end Expr

open Predicate.Expr

/-! ## What may follow -/

/-- The characters that may come after an expression of a level, blanks aside. -/
def followers (level : Nat) : List Char :=
  [')', ']', ','] ++ ['o', 'a'].take level

/-- A text that may follow an expression of a level. -/
structure Follows (level : Nat) (rest : List Char) : Prop where
  parted : ∀ c ∈ rest.head?, c ∈ [' ', ')', ']', ',']
  begins : level < 4 → ∀ c ∈ (rest.dropWhile isSpace).head?, c ∈ followers level

variable {text rest : List Char} {level depth : Nat} {expr : Expr} {nested : Reading (Checked Expr)} {word : String}
  {post : Checked Expr → List Char → Prop} {c : Char}

private theorem followers_subset (h : least ≤ level) : followers least ⊆ followers level :=
  fun _ hc => mem_append.2 ((mem_append.1 hc).imp_right (take_subset_take_left _ h ·))

theorem Follows.mono (h : Follows least rest) (hle : least ≤ level) : Follows level rest where
  parted := h.parted
  begins hl c hc := followers_subset hle (h.begins (Nat.lt_of_le_of_lt hle hl) c hc)

private theorem isSpace_of_closing (h : c ∈ [')', ']', ',']) : isSpace c = false := by
  have ha : [')', ']', ','].all (!isSpace ·) := by decide
  simpa using all_eq_true.1 ha c h

private theorem follows_cons
    (h : c ∈ [')', ']', ',']) (level : Nat) (rest : List Char) : Follows level (c :: rest) where
  parted other ho := by
    cases ho
    exact mem_cons_of_mem _ h
  begins _ other ho := by
    rw [dropWhile_cons_of_neg (by simp [isSpace_of_closing h])] at ho
    cases ho
    exact mem_append_left _ h

private theorem follows_nil : Follows level [] where
  parted _ hc := by cases hc
  begins _ _ hc := by cases hc

private theorem Follows.inert (h : Follows level rest) (hc : c ∈ rest.head?) :
    inName c = false ∧ isWordPart c.toNat = false ∧ isDigit c = false ∧ c ≠ '.' := by
  have ha : [' ', ')', ']', ','].all fun c => edges.contains c && c != '.' := by decide +kernel
  obtain ⟨hm, hdt⟩ := Bool.and_eq_true_iff.1 (all_eq_true.1 ha c (h.parted c hc))
  obtain ⟨-, hn, hw, hd⟩ := inert_of_mem_edges (contains_iff_mem.1 hm)
  exact ⟨hn, hw, hd, bne_iff_ne.1 hdt⟩

/-! ## Readers that fail -/

private theorem refuses_number (h : ∀ c ∈ text.head?, c ≠ '-' ∧ isDigit c = false) : Refuses number text := by
  refine (refuses_takeFirst ?_).bind.rule
  cases text with
  | nil => rfl
  | cons c text =>
    obtain ⟨hs, hd⟩ := h c rfl
    simp [numberLength?, hs, hd]

private theorem refuses_boolean (ht : "true".toList.isPrefixOf text = false)
    (hf : "false".toList.isPrefixOf text = false) :
    Refuses boolean text :=
  (refuses_takeFirst (by rw [wordLength?, wordLength?, ht, hf]; rfl)).bind.rule

private theorem refuses_call (h : ∀ c ∈ text.head?, startsName c = false) : Refuses (call nested) text :=
  (Yields.refuses (yields_here fun _ => (Pattern.refuses_name h).bind)).rule

/-- A text that starts with a closing mark is no operand. -/
private theorem refuses_operand (hc : c ∈ [')', ']']) (rest : List Char) : Refuses (operand nested) (c :: rest) := by
  have hi : startsName c = false ∧ isDigit c = false ∧ c ∉ ['(', '[', '"', '\'', '-', 't', 'f', '$'] := by
    rcases mem_pair.1 hc with rfl | rfl <;> decide
  obtain ⟨hn, hd, ho⟩ := hi
  have hne : ∀ other ∈ ['(', '[', '"', '\'', '-', 't', 'f', '$'], c ≠ other :=
    fun other hot heq => ho (heq ▸ hot)
  have hh : ∀ other ∈ ['(', '[', '"', '\'', '-', 't', 'f', '$'], (c :: rest).head? ≠ some other :=
    fun other hot heq => hne other hot (Option.some.inj heq)
  refine Refuses.rule (Refuses.both (refuses_literal_of_head rfl (hh '(' (by decide))).bind.rule ?_)
  refine Refuses.both (refuses_literal_of_head rfl (hh '[' (by decide))).bind.rule ?_
  refine Refuses.both (Pattern.refuses_stringLiteral (hh '"' (by decide)) (hh '\'' (by decide))).bind ?_
  refine Refuses.both (refuses_number ?_).bind (Refuses.both (Refuses.bind ?_) ?_)
  · rintro _ ⟨⟩
    exact ⟨hne '-' (by decide), hd⟩
  · exact refuses_boolean (isPrefixOf_of_head rfl (hh 't' (by decide))) (isPrefixOf_of_head rfl (hh 'f' (by decide)))
  · refine Refuses.both (refuses_call (by rintro _ ⟨⟩; exact hn)) (Refuses.both (Refuses.rule ?_) refuses_fail)
    refine Yields.refuses (yields_here fun _ => (refuses_takeFirst ?_).bind)
    rw [captureLength?.eq_def]
    split
    next heq => exact absurd (List.cons.inj heq).1 (hne '$' (by decide))
    · simp [nameLength?, hn]

private theorem refuses_comparisonSign (h : ∀ c ∈ text.head?, c ∈ followers 2) : Refuses comparisonSign text := by
  have hm : ∀ sign : Comparison, sign.mark.toList.isPrefixOf text = false := by
    have hh : ∀ sign : Comparison, ∃ c, sign.mark.toList.head? = some c ∧ c ∉ followers 2 := by
      intro sign
      cases sign <;> exact ⟨_, rfl, by decide⟩
    intro sign
    obtain ⟨c, hc, hn⟩ := hh sign
    exact isPrefixOf_of_head hc fun heq => hn (h c heq)
  have hnt : ¬ "not".toList.isPrefixOf text := by
    rw [isPrefixOf_of_head rfl fun heq => absurd (h 'n' heq) (by decide)]
    decide
  refine Refuses.rule (refuses_firstOf fun reader hr => ?_)
  simp only [mem_append, mem_map, mem_singleton] at hr
  obtain (⟨sign, -, rfl⟩ | rfl) | ⟨word, -, rfl⟩ := hr
  · exact (refuses_literal (hm sign)).bind
  · exact (refuses_takeFirst (notInLength?_eq_none hnt)).bind.rule
  · exact (refuses_keyword (hm word)).bind

set_option maxRecDepth 3000 in
private theorem yields_comparisonSign (sign : Comparison) (rest : List Char) :
    Yields comparisonSign (sign.mark.toList ++ ' ' :: rest) fun value after => value = sign ∧ after = ' ' :: rest := by
  intro pos
  cases sign <;> exact ⟨_, _, rfl, rfl, rfl⟩

private theorem separates_keyword {gap : List Char} (h : gap.dropWhile isSpace = word.toList ++ [' ']) :
    Separates (do blanks; keyword word; blanks) gap :=
  separates_of h (Pattern.yields_keyword word)

/-! ## Reading at every level -/

/-- The reader for expressions that bind at least so tightly. -/
def readerAt (depth : Nat) : Nat → Reading (Checked Expr)
  | 0 => disjunctionOf (negationAt (depth + 1))
  | 1 => joined "and" .conj (negationAt (depth + 1))
  | 2 => negationAt (depth + 1)
  | 3 => comparison (disjunctionOf (negationAt depth))
  | _ => operand (disjunctionOf (negationAt depth))

def ReadsAs (reader : Reading (Checked Expr)) (text rest : List Char) (expr : Expr) : Prop :=
  Yields reader (text ++ rest) fun checked after => checked = expr.result ∧ Same after rest

private theorem Follows.refuses_joint (h : Follows level rest) (hl : level < 4)
    (hw : word.toList.head? = some c) (hc : c ∉ followers level) (hs : Same text rest) :
    Refuses (do blanks; keyword word; blanks) text := by
  refine Yields.refuses (yields_blanks (refuses_keyword ?_).bind)
  rw [hs]
  exact isPrefixOf_of_head hw fun heq => hc (h.begins hl c heq)

theorem ReadsAs.joined {part : Reading (Checked Expr)} {join : List Expr → Expr} (h : ReadsAs part text rest expr)
    (he : ∀ text, Same text rest → Refuses (do blanks; keyword word; blanks) text) :
    ReadsAs (Predicate.joined word join part) text rest expr := by
  refine Yields.rule (Yields.bind (Yields.bind (h.imp fun checked after hc => Yields.bind (Yields.many ?_))))
  refine Refuses.upTo (he _ hc.2).bind (yields_pure (yields_pure ⟨?_, hc.2⟩))
  rw [← hc.1]
  cases checked <;> rfl

theorem ReadsAs.comparison (h : ReadsAs (operand nested) text rest expr) (hr : Follows 3 rest) :
    ReadsAs (Predicate.comparison nested) text rest expr := by
  refine Yields.rule (Yields.bind (h.imp fun checked after hc => Yields.bind (Refuses.optional ?_ ?_)))
  · refine Yields.refuses (yields_blanks (refuses_comparisonSign ?_).bind)
    rw [hc.2]
    exact hr.begins (by decide)
  · exact yields_pure hc

theorem ReadsAs.negation (h : ReadsAs (Predicate.comparison (disjunctionOf (negationAt depth))) text rest expr)
    (hn : (text ++ rest).head? ≠ some 'n') : ReadsAs (negationAt (depth + 1)) text rest expr :=
  Yields.rule (Refuses.either (refuses_keyword (isPrefixOf_of_head rfl hn)).bind.rule h)

private theorem ReadsAs.loosen (h : ReadsAs (readerAt depth (level + 1)) text rest expr) (hl : level < 4)
    (hr : Follows level rest) (hn : level = 2 → (text ++ rest).head? ≠ some 'n') :
    ReadsAs (readerAt depth level) text rest expr := by
  match level with
  | 0 | 1 => exact h.joined fun _ => hr.refuses_joint hl rfl (by decide)
  | 2 => exact h.negation (hn rfl)
  | 3 => exact h.comparison hr

private theorem ReadsAs.loosenTo (h : ReadsAs (readerAt depth level) text rest expr) (hle : least ≤ level)
    (hl : level ≤ 4)
    (hr : Follows least rest) (hn : least ≤ 2 → 3 ≤ level → (text ++ rest).head? ≠ some 'n') :
    ReadsAs (readerAt depth least) text rest expr := by
  induction level with
  | zero => rwa [Nat.le_zero.1 hle]
  | succ level ih =>
    rcases Nat.le_succ_iff.1 hle with hle | rfl
    · refine ih (h.loosen hl (hr.mono hle) ?_) hle (by omega) ?_
      · exact fun heq => hn (by omega) (by omega)
      · exact fun hls hl => hn hls (by omega)
    · exact h

/-! ## Operands -/

private theorem yields_operand (hg : text.head? ≠ some '(') (hl : text.head? ≠ some '[') (h : Yields (firstOf [
      do return .ok (.constant (.text (← stringLiteral))),
      do return (← number).map .constant,
      do return .ok (.constant (.bool (← boolean))),
      call nested,
      capture]) text post) : Yields (operand nested) text post := by
  refine Yields.rule (Refuses.either (refuses_literal_of_head rfl hg).bind.rule ?_)
  exact Refuses.either (refuses_literal_of_head rfl hl).bind.rule h

private theorem yields_operand_word (h : ∀ c ∈ text.head?, c ∉ ['(', '[', '"', '\'', '-'] ∧ isDigit c = false)
    (hw : Yields (firstOf [do return .ok (.constant (.bool (← boolean))), call nested, capture]) text post) :
    Yields (operand nested) text post := by
  have hh : ∀ c ∈ ['(', '[', '"', '\'', '-'], text.head? ≠ some c := fun c hc heq => (h c heq).1 hc
  refine yields_operand (hh _ (by decide)) (hh _ (by decide)) ?_
  refine Refuses.either (Pattern.refuses_stringLiteral (hh _ (by decide)) (hh _ (by decide))).bind ?_
  refine Refuses.either (refuses_number fun c hc => ⟨?_, (h c hc).2⟩).bind hw
  rintro rfl
  exact hh '-' (by decide) hc

private theorem isDigit_of_isDigit (h : c.isDigit) : isDigit c := by
  have ha : ∀ n ∈ List.range' 48 10, isScriptDigit n := by decide +kernel
  obtain ⟨hl, hm⟩ := isDigit_bounds h
  exact ha c.toNat (mem_range'_1.2 (by omega))

private theorem head?_integerText (value : Int) (h : c ∈ (integerText value ++ rest).head?) : c = '-' ∨ c.isDigit := by
  rw [head?_append_of_ne_nil _ (integerText_ne_nil value)] at h
  exact mem_integerText (mem_of_head? h)

private theorem numberLength?_integerText (value : Int) (hr : Follows 4 rest) :
    numberLength? (integerText value ++ rest) = some (integerText value).length := by
  have ht : (Nat.toDigits 10 value.natAbs ++ rest).takeWhile isDigit = Nat.toDigits 10 value.natAbs := by
    refine Pattern.takeWhile_all_append (all_eq_true.2 fun c hc => ?_) fun c hc => (hr.inert hc).2.2.1
    exact isDigit_of_isDigit (isDigit_of_mem_toDigits hc)
  have hdt : rest.head? ≠ some '.' := fun heq => (hr.inert heq).2.2.2 rfl
  have hd : ∀ sign : List Char, (sign ++ (Nat.toDigits 10 value.natAbs ++ rest)).drop
      (sign.length + (Nat.toDigits 10 value.natAbs).length) = rest := by
    intro sign
    rw [← append_assoc, ← length_append, drop_left]
  have hn : ∀ sign : List Char,
      (if (sign ++ (Nat.toDigits 10 value.natAbs ++ rest)).head? == some '-' then 1 else 0) = sign.length →
      numberLength? (sign ++ (Nat.toDigits 10 value.natAbs ++ rest)) =
        some (sign ++ Nat.toDigits 10 value.natAbs).length := by
    intro sign hs
    rw [numberLength?]
    simp only [hs, drop_left, ht, hd]
    simp [hdt]
  rw [integerText, append_assoc]
  refine hn _ ?_
  split
  · rfl
  · refine if_neg fun heq => ?_
    rw [nil_append, head?_append_of_ne_nil _ Nat.toDigits_ne_nil] at heq
    exact absurd (isDigit_of_mem_toDigits (mem_of_head? (eq_of_beq heq))) (by decide)

theorem readsAs_text (value : String) :
    ReadsAs (operand nested) (Constant.text value).write rest (.constant (.text value)) := by
  refine yields_operand (by simp [Constant.write]) (by simp [Constant.write]) (Yields.either ?_)
  exact Yields.bind (Pattern.yields_stringLiteral value (yields_pure ⟨(result_leaf (by rintro _ ⟨⟩) rfl).symm, rfl⟩))

private theorem readsAs_bool (value : Bool) (hr : Follows 4 rest) :
    ReadsAs (operand nested) (Constant.bool value).write rest (.constant (.bool value)) := by
  have hh : ∀ c ∈ ((Constant.bool value).write ++ rest).head?, c ∉ ['(', '[', '"', '\'', '-'] ∧ isDigit c = false := by
    cases value <;> (rintro _ ⟨⟩; decide)
  have hl : (wordLength? "true" ((Constant.bool value).write ++ rest) <|>
      wordLength? "false" ((Constant.bool value).write ++ rest)) = some (Constant.bool value).write.length := by
    have hw := fun word => Pattern.wordLength?_self_append word fun c hc => (hr.inert hc).2.1
    cases value with
    | true => exact congrArg (· <|> _) (hw "true")
    | false => exact hw "false"
  refine yields_operand_word hh (Yields.either (Yields.bind (Yields.rule (Yields.bind ?_))))
  refine yields_takeFirst hl (yields_pure (yields_pure ?_))
  rw [take_left, drop_left, result_leaf (by rintro _ ⟨⟩) rfl]
  cases value <;> exact ⟨rfl, rfl⟩

private theorem write_int (value : Int) : (Expr.constant (.number (.int value))).write = integerText value :=
  toList_toString_int value

/-- A numeral that can be read is a constant, since none is read as NaN. -/
private theorem exists_checkNumber_eq_ok {text : List Char} {number : Number}
    (h : (if text.contains '.' then (readDouble? text).map .double else (readInt? text).map .int) = some number) :
    ∃ real, checkNumber text = .ok (.number number real) := by
  have hr : number.isNaN = false := by
    split at h
    next hp =>
      obtain ⟨value, hv, rfl⟩ := Option.map_eq_some_iff.1 h
      cases value with
      | nan => exact absurd hv (readDouble?_ne_nan (contains_iff_mem.1 hp))
      | infinite | finite => rfl
    next =>
      obtain ⟨value, _, rfl⟩ := Option.map_eq_some_iff.1 h
      rfl
  refine ⟨hr, ?_⟩
  simp only [checkNumber, h, Option.bind_some, Constant.ofNumber?, dif_pos hr]

private theorem readsAs_int (value : Int) (hr : Follows 4 rest) :
    ReadsAs (operand nested) (Expr.constant (.number (.int value))).write rest (.constant (.number (.int value))) := by
  have hh : ∀ c ∈ ['(', '[', '"', '\''], (integerText value ++ rest).head? ≠ some c := by
    intro c hc heq
    have ha : ['(', '[', '"', '\''].all fun c => !(c == '-' || c.isDigit) := by decide
    have hn : ¬ (c = '-' ∨ c.isDigit) := by simpa using all_eq_true.1 ha c hc
    exact hn (head?_integerText value heq)
  have hp : ¬ (integerText value).contains '.' := by
    intro h
    exact absurd (mem_integerText (contains_iff_mem.1 h)) (by decide)
  rw [write_int]
  refine yields_operand (hh _ (by decide)) (hh _ (by decide)) (Refuses.either (Refuses.bind ?_) (Yields.either ?_))
  · exact Pattern.refuses_stringLiteral (hh _ (by decide)) (hh _ (by decide))
  refine Yields.bind (Yields.rule (Yields.bind ?_))
  refine yields_takeFirst (numberLength?_integerText value hr) (yields_pure (yields_pure ?_))
  rw [take_left, drop_left, result_int]
  by_cases hf : value.natAbs < 10 ^ maxIntDigits
  · have hn : (readInt? (integerText value)).map Number.int = some (.int value) := by
      rw [readInt?_integerText, if_pos hf, Option.map_some]
    obtain ⟨_, hn⟩ := exists_checkNumber_eq_ok ((if_neg hp).trans hn)
    rw [hn, if_pos hf]
    exact ⟨rfl, rfl⟩
  · rw [checkNumber, if_neg hp, readInt?_integerText, if_neg hf, if_neg hf]
    exact ⟨rfl, rfl⟩

private theorem Attribute.ofName?_name (aspect : Attribute) : Attribute.ofName? aspect.name = some aspect := by
  cases aspect <;> decide

private theorem yields_aspect (aspect : Attribute) (hr : Follows 4 rest) :
    Yields Predicate.aspect ('.' :: (aspect.name.toList ++ rest)) fun value after =>
      value = aspect.name ∧ after = rest := by
  let word : CaptureName := ⟨aspect.name, by cases aspect <;> decide, by cases aspect <;> decide⟩
  exact Yields.rule (Yields.bind (yields_literal_cons rfl (word.yields fun c hc => (hr.inert hc).1)))

private theorem readsAs_capture (name : CaptureName) (aspect : Option Attribute) (hr : Follows 4 rest) :
    ReadsAs (operand nested) (Expr.capture name.text aspect).write rest (.capture name.text aspect) := by
  rw [ReadsAs, write, cons_append, append_assoc, result_leaf (by rintro _ ⟨⟩) rfl]
  have hw : ∀ c ∈ (writeAspect aspect ++ rest).head?, inName c = false := by
    cases aspect with
    | none => exact fun c hc => (hr.inert hc).1
    | some aspect =>
      rintro _ ⟨⟩
      decide
  have hl : captureLength? ('$' :: (name.text.toList ++ (writeAspect aspect ++ rest))) =
      some (name.text.toList.length + 1) := by
    rw [captureLength?, name.nameLength? hw]
    rfl
  refine yields_operand_word (by rintro _ ⟨⟩; decide) (Refuses.either (refuses_boolean ?_ ?_).bind ?_)
  · exact isPrefixOf_of_head (c := 't') rfl (by simp)
  · exact isPrefixOf_of_head (c := 'f') rfl (by simp)
  refine Refuses.either (refuses_call (by rintro _ ⟨⟩; decide)) (Yields.either (Yields.rule ?_))
  refine Yields.bind (yields_here fun start => Yields.bind (yields_takeFirst hl ?_))
  have hn : ('$' :: name.text.toList).dropWhile (· == '$') = name.text.toList := by
    obtain ⟨c, more, hls, hc⟩ := Pattern.Term.exists_eq_cons name.starts
    have hne : c ≠ '$' := by
      rintro rfl
      exact absurd hc (by decide)
    rw [hls, dropWhile_cons_of_pos rfl, dropWhile_cons_of_neg (by simpa using hne)]
  rw [take_succ_cons, take_left, drop_succ_cons, drop_left, hn, String.ofList_toList]
  cases aspect with
  | none =>
    refine Yields.bind (Refuses.optional ?_ (Yields.bind (yields_here fun stop => yields_pure ⟨rfl, rfl⟩)))
    exact (refuses_literal_of_head rfl fun heq => (hr.inert heq).2.2.2 rfl).bind.rule
  | some aspect =>
    refine Yields.bind (Yields.optional (cons_ne_nil _ _) ((yields_aspect aspect hr).imp ?_))
    rintro _ _ ⟨rfl, rfl⟩
    refine Yields.bind (yields_here fun stop => yields_pure ⟨?_, rfl⟩)
    rw [checkCapture, Attribute.ofName?_name]

/-! ## Lists -/

/-- A text that starts neither with a blank nor, from the level of comparisons on, with the first letter of `not`. -/
def Starts (least : Nat) (text : List Char) : Prop :=
  text.head?.any fun c => !isSpace c && (least < 3 || c != 'n')

theorem starts_cons (h : (!isSpace c && c != 'n') = true) (least : Nat) (rest : List Char) :
    Starts least (c :: rest) := by
  rw [Bool.and_eq_true] at h
  simp [Starts, h]

theorem Starts.solid (h : Starts level text) : Solid text := by
  cases text with
  | nil => cases h
  | cons c text =>
    rw [Starts, head?_cons, Option.any_some, Bool.and_eq_true, Bool.not_eq_true'] at h
    exact ⟨c, text, rfl, h.1⟩

theorem Starts.append (h : Starts level text) (rest : List Char) : Starts level (text ++ rest) := by
  obtain ⟨c, more, rfl, -⟩ := h.solid
  exact h

theorem Starts.mono (h : Starts level text) (hle : least ≤ level) : Starts least text := by
  obtain ⟨c, more, rfl, hc⟩ := h.solid
  simp only [Starts, head?_cons, Option.any_some, hc] at h ⊢
  grind

private theorem Starts.head?_ne (h : Starts level text) (hl : 3 ≤ level) (rest : List Char) :
    (text ++ rest).head? ≠ some 'n' := by
  obtain ⟨c, more, rfl, hc⟩ := h.solid
  simp only [Starts, head?_cons, Option.any_some, hc] at h
  rintro ⟨⟩
  simp [Nat.not_lt.2 hl] at h

/-- An expression is read wherever it is written, with as many levels of nesting to spare as its text has characters. -/
structure Readable (expr : Expr) : Prop where
  starts : Starts expr.level expr.write
  reads : ∀ level ≤ 4, ∀ depth rest, (expr.writeAt level).length ≤ depth → Follows level rest →
    ReadsAs (readerAt depth level) (expr.writeAt level) rest expr

theorem Readable.starts_writeAt (h : Readable expr) (least : Nat) : Starts least (expr.writeAt least) := by
  by_cases hle : least ≤ expr.level
  · rw [writeAt_of_le hle]
    exact h.starts.mono hle
  · rw [writeAt_of_lt (Nat.not_le.1 hle), Starts]
    have ho : isSpace '(' = false := by decide
    simp [ho]

variable {exprs : List Expr} {separator : Reading Unit} {gap : List Char}

private theorem yields_separated_writes (hg : Separates separator gap) (hl : level ≤ 4) (hne : exprs ≠ [])
    (h : ∀ expr ∈ exprs, Readable expr) (hd : (gap.intercalate (writes level exprs)).length ≤ depth)
    (hf : ∀ rest, Follows level (gap ++ rest)) (hr : Follows level rest)
    (hen : ∀ text, Same text rest → Refuses separator text) :
    Yields (separated (readerAt depth level) separator) (gap.intercalate (writes level exprs) ++ rest)
      fun values after => values = exprs.map result ∧ Same after rest := by
  obtain ⟨first, others, rfl⟩ := exists_cons_of_ne_nil hne
  have hln : ∀ expr ∈ first :: others, (expr.writeAt level).length ≤ depth := by
    intro expr he
    refine Nat.le_trans (length_le_intercalate gap ?_) hd
    rw [writes_eq_map]
    exact mem_map_of_mem he
  rw [writes_eq_map, map_cons, intercalate_cons, writeAll_map, append_assoc]
  have ha : Yields (separated (readerAt depth level) separator)
      (first.writeAt level ++ (writeAll gap (writeAt level) others ++ rest)) fun values after =>
        values.map id = (first :: others).map result ∧ Same after rest :=
    hg.yields_separated (fun expr he rest hr => (h expr he).reads level hl depth rest (hln expr he) hr)
      (fun expr he => ((h expr (mem_cons_of_mem _ he)).starts_writeAt level).solid) hf hr hen
  exact ha.imp fun values after hv => ⟨by rw [← hv.1, map_id], hv.2⟩

private theorem follows_gap {gap : List Char} {more : List Char} (hg : gap.dropWhile isSpace = c :: more)
    (hc : c ∈ followers level) (hh : ∀ c ∈ gap.head?, c ∈ [' ', ')', ']', ',']) (rest : List Char) :
    Follows level (gap ++ rest) where
  parted other ho := by
    cases gap with
    | nil => cases hg
    | cons first gap => exact hh other ho
  begins _ other ho := by
    rw [dropWhile_append_of_ne_nil (by simp [hg]), hg] at ho
    cases ho
    exact hc

private theorem refuses_nested (hc : c ∈ [')', ']']) (depth : Nat) (rest : List Char) :
    Refuses (disjunctionOf (negationAt depth)) (c :: rest) := by
  have hn : (c :: rest).head? ≠ some 'n' := by
    rintro ⟨⟩
    revert hc
    decide
  refine (Refuses.bind (Refuses.bind ?_)).rule
  refine (Refuses.bind (Refuses.bind ?_)).rule
  cases depth with
  | zero => exact refuses_fail
  | succ depth =>
    refine Refuses.rule (Refuses.both (refuses_keyword (isPrefixOf_of_head rfl hn)).bind.rule ?_)
    exact (refuses_operand hc rest).bind.rule

/-- Expressions in a list are read up to the mark that closes it. -/
private theorem yields_optionalItems (h : ∀ expr ∈ exprs, Readable expr)
    (hd : (", ".toList.intercalate (writes 0 exprs)).length ≤ depth) (hc : c ∈ [')', ']']) (rest : List Char) :
    Yields (optionalItems (readerAt depth 0)) (", ".toList.intercalate (writes 0 exprs) ++ c :: rest)
      fun checked after => checked = checkAll (exprs.map result) ∧ Same after (c :: rest) := by
  by_cases hne : exprs = []
  · subst hne
    refine Yields.bind (Refuses.optional ?_ (yields_pure ⟨rfl, rfl⟩))
    exact (refuses_nested hc (depth + 1) rest).bind.bind.rule
  · have hcl : c ∈ [')', ']', ','] := mem_append_left [','] hc
    have hcm : c ≠ ',' := by
      rintro rfl
      exact absurd hc (by decide)
    refine Yields.bind (Yields.optional (by simp) (Yields.rule (Yields.bind ?_)))
    refine (yields_separated_writes Pattern.separates_comma (by decide) hne h hd
      (follows_gap (c := ',') rfl (by decide) (by simp)) (follows_cons hcl 0 rest)
      fun _ => refuses_comma (isSpace_of_closing hcl) hcm).imp ?_
    rintro _ after ⟨rfl, ha⟩
    exact yields_pure (yields_pure ⟨rfl, ha⟩)

private theorem yields_enclosed {β : Type} (h : ∀ expr ∈ exprs, Readable expr)
    (hd : (", ".toList.intercalate (writes 0 exprs)).length ≤ depth) {mark : String} (hm : mark.toList = [c])
    (hc : c ∈ [')', ']']) {next : Checked (List Expr) → Reading β} {post : β → List Char → Prop}
    (hn : Yields (next (checkAll (exprs.map result))) rest post) :
    Yields (do blanks; let exprs ← optionalItems (readerAt depth 0); blanks; literal mark; next exprs)
      (", ".toList.intercalate (writes 0 exprs) ++ c :: rest) post := by
  have hcl : (c :: rest).dropWhile isSpace = c :: rest :=
    dropWhile_cons_of_neg (by simp [isSpace_of_closing (mem_append_left [','] hc)])
  have hb : (", ".toList.intercalate (writes 0 exprs) ++ c :: rest).dropWhile isSpace =
      ", ".toList.intercalate (writes 0 exprs) ++ c :: rest := by
    cases exprs with
    | nil => exact hcl
    | cons first others =>
      rw [writes, intercalate_cons]
      exact (((h first mem_cons_self).starts_writeAt 0).append _).solid.dropWhile_append _
  refine Yields.bind (yields_blanks ?_)
  rw [hb]
  refine Yields.bind ((yields_optionalItems h hd hc rest).imp ?_)
  rintro _ after ⟨rfl, ha⟩
  refine Yields.bind (yields_blanks ?_)
  rw [ha, hcl]
  exact Yields.bind (yields_literal_cons hm hn)

private theorem readsAs_list (h : ∀ expr ∈ exprs, Readable expr) (hd : (Expr.list exprs).write.length ≤ depth + 1) :
    ReadsAs (operand (readerAt depth 0)) (Expr.list exprs).write rest (.list exprs) := by
  rw [write, length_cons, length_append] at hd
  rw [ReadsAs, write, cons_append, append_assoc, singleton_append]
  refine Yields.rule (Refuses.either (refuses_literal_of_head (c := '(') rfl (by simp)).bind.rule ?_)
  refine Yields.either (Yields.rule (Yields.bind (yields_literal_cons rfl ?_)))
  refine yields_enclosed h (by omega) rfl (by decide) (yields_pure ⟨?_, rfl⟩)
  exact @map_checkAll_result (.list exprs) _ rfl (by rintro _ ⟨⟩)

private theorem Function.ofName?_name (function : Function) : Function.ofName? function.name = some function := by
  cases function <;> decide

private theorem readsAs_call {function : Function} (ha : exprs.length = function.arity)
    (h : ∀ expr ∈ exprs, Readable expr)
    (hd : (Expr.call function exprs).write.length ≤ depth + 1) :
    ReadsAs (operand (readerAt depth 0)) (Expr.call function exprs).write rest (.call function exprs) := by
  let word : CaptureName := ⟨function.name, by cases function <;> decide, by cases function <;> decide⟩
  rw [write, length_append, length_cons, length_append] at hd
  rw [ReadsAs, write, append_assoc, cons_append, append_assoc, singleton_append]
  refine yields_operand_word (by cases function <;> (rintro _ ⟨⟩; decide)) (Refuses.either (Refuses.bind ?_) ?_)
  · exact refuses_boolean (by cases function <;> rfl) (by cases function <;> rfl)
  refine Yields.either (Yields.rule (Yields.bind (yields_here fun start => Yields.bind ?_)))
  refine (word.yields (by rintro _ ⟨⟩; decide)).imp ?_
  rintro _ _ ⟨rfl, rfl⟩
  refine Yields.bind (yields_blanks ?_)
  rw [dropWhile_cons_of_neg (by decide)]
  refine Yields.bind (yields_literal_cons rfl (yields_enclosed h (by omega) rfl (by decide) ?_))
  refine Yields.bind (yields_here fun stop => yields_pure ⟨?_, rfl⟩)
  refine @bind_checkAll_result (.call function exprs) _ ?_ (by rintro _ ⟨⟩)
  rw [checkCall, Function.ofName?_name]
  simp [parts, ha]

theorem ReadsAs.group (h : ReadsAs (readerAt depth 0) text (')' :: rest) expr) (hs : Solid text) :
    ReadsAs (operand (readerAt depth 0)) ('(' :: (text ++ [')'])) rest expr := by
  rw [ReadsAs, cons_append, append_assoc, singleton_append]
  refine Yields.rule (Yields.either (Yields.rule (Yields.bind (yields_literal_cons rfl (Yields.bind ?_)))))
  refine yields_blanks ?_
  rw [hs.dropWhile_append]
  refine Yields.bind (h.imp fun checked after hc => Yields.bind (yields_blanks ?_))
  rw [hc.2, dropWhile_cons_of_neg (by decide)]
  exact Yields.bind (yields_literal_cons rfl (yields_pure ⟨hc.1, rfl⟩))

/-! ## Operators -/

private theorem readsAs_compare {sign : Comparison} {left right : Expr} (hlf : Readable left) (hrg : Readable right)
    (hd : (Expr.compare sign left right).write.length ≤ depth) (hrs : Follows 3 rest) :
    ReadsAs (readerAt depth 3) (Expr.compare sign left right).write rest (.compare sign left right) := by
  have hw : (Expr.compare sign left right).write =
      left.writeAt 4 ++ ' ' :: (sign.mark.toList ++ ' ' :: right.writeAt 4) := rfl
  rw [hw] at hd ⊢
  simp only [length_append, length_cons] at hd
  rw [ReadsAs, append_assoc, cons_append, append_assoc, cons_append]
  have hg : Follows 4 (' ' :: (sign.mark.toList ++ ' ' :: (right.writeAt 4 ++ rest))) :=
    ⟨by rintro _ ⟨⟩; decide, fun h => absurd h (by decide)⟩
  have hm : Solid sign.mark.toList := by
    cases sign <;> exact ⟨_, _, rfl, by decide⟩
  refine Yields.rule (Yields.bind ((hlf.reads 4 (by decide) depth _ (by omega) hg).imp ?_))
  rintro _ after ⟨rfl, ha⟩
  have hne : after ≠ [] := by
    rintro rfl
    rw [Same, Pattern.dropWhile_space hm] at ha
    obtain ⟨c, more, heq, -⟩ := hm
    rw [heq] at ha
    cases ha
  refine Yields.bind (Yields.optional hne (Yields.bind (yields_blanks ?_)))
  rw [ha, Pattern.dropWhile_space hm]
  refine Yields.bind ((yields_comparisonSign sign _).imp ?_)
  rintro sign _ ⟨rfl, rfl⟩
  refine Yields.bind (yields_blanks ?_)
  rw [Pattern.dropWhile_space (hrg.starts_writeAt 4).solid]
  refine Yields.bind ((hrg.reads 4 (by decide) depth rest (by omega) (hrs.mono (by decide))).imp ?_)
  rintro _ after ⟨rfl, ha⟩
  refine yields_pure (yields_pure ⟨?_, ha⟩)
  have hf : (Expr.compare sign left right).Fits ↔ left.Fits ∧ right.Fits := by
    rw [fits_iff (by rintro _ ⟨⟩), parts, forall_mem_cons, forall_mem_singleton]
  by_cases hl : left.Fits <;> by_cases hr : right.Fits <;> simp only [result, hf, hl, hr] <;> rfl

private theorem readsAs_neg {operand : Expr} (h : Readable operand) (hd : (Expr.neg operand).write.length ≤ depth + 1)
    (hr : Follows 2 rest) : ReadsAs (readerAt (depth + 1) 2) (Expr.neg operand).write rest (.neg operand) := by
  have hw : (Expr.neg operand).write = "not".toList ++ ' ' :: operand.writeAt 2 := rfl
  rw [hw] at hd ⊢
  simp only [length_append, length_cons] at hd
  rw [ReadsAs, append_assoc, cons_append]
  refine Yields.rule (Yields.either (Yields.rule (Yields.bind (Pattern.yields_keyword "not" (Yields.bind ?_)))))
  refine yields_blanks ?_
  rw [Pattern.dropWhile_space (h.starts_writeAt 2).solid]
  refine Yields.bind ((h.reads 2 (by decide) depth rest (by omega) hr).imp ?_)
  rintro _ after ⟨rfl, ha⟩
  refine yields_pure ⟨?_, ha⟩
  have hf : (Expr.neg operand).Fits ↔ operand.Fits := by
    rw [fits_iff (by rintro _ ⟨⟩), parts, forall_mem_singleton]
  by_cases ho : operand.Fits <;> simp only [result, hf, ho] <;> rfl

private theorem readsAs_joined {c : Char} {join : List Expr → Expr} (hp : (join exprs).parts = exprs)
    (hj : ∀ value, join exprs ≠ .constant (.number (.int value))) (hcn : 2 ≤ exprs.length)
    (h : ∀ expr ∈ exprs, Readable expr) (hg : gap.dropWhile isSpace = word.toList ++ [' '])
    (hh : ∀ c ∈ gap.head?, c ∈ [' ', ')', ']', ',']) (hw : word.toList.head? = some c)
    (hc : c ∈ followers (level + 1)) (hn : c ∉ followers level) (hl : level < 3)
    (hd : (gap.intercalate (writes (level + 1) exprs)).length ≤ depth) (hr : Follows level rest) :
    ReadsAs (Predicate.joined word join (readerAt depth (level + 1))) (gap.intercalate (writes (level + 1) exprs)) rest
      (join exprs) := by
  obtain ⟨more, hm⟩ := head?_eq_some_iff.1 hw
  have hfl : ∀ rest, Follows (level + 1) (gap ++ rest) := by
    have hg : gap.dropWhile isSpace = c :: (more ++ [' ']) := by
      rw [hg, hm, cons_append]
    exact follows_gap hg hc hh
  refine Yields.rule (Yields.bind ?_)
  refine (yields_separated_writes (separates_keyword hg) (by omega) (by rintro rfl; cases hcn) h hd hfl
    (hr.mono (Nat.le_succ _)) fun _ => hr.refuses_joint (by omega) hw hn).imp ?_
  rintro _ after ⟨rfl, ha⟩
  refine yields_pure ⟨?_, ha⟩
  obtain ⟨first, second, others, rfl⟩ : ∃ first second others, exprs = first :: second :: others := by
    match exprs, hcn with
    | first :: second :: others, _ => exact ⟨first, second, others, rfl⟩
  have hmp := fun f hf => @map_checkAll_result (join (first :: second :: others)) f hf hj
  rw [hp] at hmp
  exact hmp _ rfl

private theorem readsAs_conj (hc : 2 ≤ exprs.length) (h : ∀ expr ∈ exprs, Readable expr)
    (hd : (Expr.conj exprs).write.length ≤ depth) (hr : Follows 1 rest) :
    ReadsAs (readerAt depth 1) (Expr.conj exprs).write rest (.conj exprs) :=
  @readsAs_joined rest 1 depth "and" exprs " and ".toList 'a' .conj rfl (by rintro _ ⟨⟩) hc h (by decide)
    (by simp) rfl (by decide) (by decide) (by decide) hd hr

private theorem readsAs_disj (hc : 2 ≤ exprs.length) (h : ∀ expr ∈ exprs, Readable expr)
    (hd : (Expr.disj exprs).write.length ≤ depth) (hr : Follows 0 rest) :
    ReadsAs (readerAt depth 0) (Expr.disj exprs).write rest (.disj exprs) :=
  @readsAs_joined rest 0 depth "or" exprs " or ".toList 'o' .disj rfl (by rintro _ ⟨⟩) hc h (by decide)
    (by simp) rfl (by decide) (by decide) (by decide) hd hr

/-- An expression is readable if it is read at its own level. -/
private theorem readable_of_level (hs : Starts expr.level expr.write)
    (h : ∀ depth rest, expr.write.length ≤ depth + 1 → Follows expr.level rest →
      ReadsAs (readerAt (depth + 1) expr.level) expr.write rest expr) : Readable expr := by
  have hb : expr.level ≤ 4 := by cases expr <;> simp [level]
  have hl : ∀ level ≤ expr.level, ∀ depth rest, expr.write.length ≤ depth → Follows level rest →
      ReadsAs (readerAt depth level) expr.write rest expr := by
    intro level hle depth rest hd hr
    obtain ⟨c, more, hw, -⟩ := hs.solid
    obtain ⟨depth, rfl⟩ := Nat.exists_eq_add_one.2 (Nat.lt_of_lt_of_le (by simp [hw]) hd)
    exact (h depth rest hd (hr.mono hle)).loosenTo hle hb hr fun _ hlv => hs.head?_ne hlv rest
  refine ⟨hs, fun level hlv depth rest hd hr => ?_⟩
  by_cases hle : level ≤ expr.level
  · rw [writeAt_of_le hle] at hd ⊢
    exact hl level hle depth rest hd hr
  · rw [writeAt_of_lt (Nat.not_le.1 hle)] at hd ⊢
    rw [length_cons, length_append, length_singleton] at hd
    obtain ⟨depth, rfl⟩ := Nat.exists_eq_add_one.2 (Nat.lt_of_lt_of_le (Nat.succ_pos _) hd)
    have hi := hl 0 (Nat.zero_le _) depth _ (by omega) (follows_cons (c := ')') (by decide) 0 rest)
    have hg : ReadsAs (readerAt (depth + 1) 4) ('(' :: (expr.write ++ [')'])) rest expr :=
      hi.group hs.solid
    exact hg.loosenTo hlv (Nat.le_refl _) hr fun _ _ => by simp

private theorem starts_integerText (value : Int) : Starts level (integerText value) := by
  obtain ⟨c, more, ht⟩ := exists_cons_of_ne_nil (integerText_ne_nil value)
  have hc : c = '-' ∨ c.isDigit := mem_integerText (ht ▸ mem_cons_self)
  rw [ht]
  refine starts_cons ?_ level more
  rcases hc with rfl | hc
  · decide
  · have hs : isSpace c = false := by
      refine Bool.eq_false_iff.2 fun hs => ?_
      have hi := (inert_of_mem_edges (mem_append_right _ (mem_spaces hs))).2.2.2
      rw [isDigit_of_isDigit hc] at hi
      cases hi
    have hne : c ≠ 'n' := by
      rintro rfl
      exact absurd hc (by decide)
    simp [hs, hne]

private theorem starts_intercalate (h : ∀ expr ∈ exprs, Readable expr) (hc : 2 ≤ exprs.length) :
    Starts level (gap.intercalate (writes level exprs)) := by
  match exprs, hc with
  | first :: others, _ =>
    rw [writes, intercalate_cons]
    exact ((h first mem_cons_self).starts_writeAt level).append _

theorem readable (h : expr.Expressible) : Readable expr := by
  induction h with
  | text value => exact readable_of_level (starts_cons (by decide) _ _) fun _ _ _ _ => readsAs_text value
  | bool value =>
    refine readable_of_level ?_ fun _ _ _ hr => readsAs_bool value hr
    cases value <;> exact starts_cons (by decide) _ _
  | int value =>
    refine readable_of_level ?_ fun _ _ _ hr => readsAs_int value hr
    exact write_int value ▸ starts_integerText value
  | capture name aspect =>
    exact readable_of_level (starts_cons (by decide) _ _) fun _ _ _ hr => readsAs_capture name aspect hr
  | list hi ih =>
    exact readable_of_level (starts_cons (by decide) _ _) fun _ _ hd _ => readsAs_list ih hd
  | @call function arguments ha har ih =>
    refine readable_of_level ?_ fun _ _ hd _ => readsAs_call ha ih hd
    cases function <;> exact starts_cons (by decide) _ _
  | compare comparison hl hrg ihleft ihright =>
    refine readable_of_level ?_ fun _ _ hd hr => readsAs_compare ihleft ihright hd hr
    exact ((ihleft.starts_writeAt 4).append _).mono (show 3 ≤ 4 by decide)
  | conj hc ho ih =>
    refine readable_of_level ?_ fun _ _ hd hr => readsAs_conj hc ih hd hr
    exact (starts_intercalate ih hc).mono (show 1 ≤ 2 by decide)
  | disj hc ho ih =>
    refine readable_of_level ?_ fun _ _ hd hr => readsAs_disj hc ih hd hr
    exact (starts_intercalate ih hc).mono (show 0 ≤ 1 by decide)
  | neg hop ih =>
    refine readable_of_level ?_ fun _ _ hd hr => readsAs_neg ih hd hr
    exact (rfl : Starts 2 ('n' :: _))

/-! ## Whole predicates -/

private theorem predicateText_whole_write (h : expr.Expressible) :
    predicateText.whole expr.write = .ok expr.result := by
  have hw : expr.writeAt 0 = expr.write := writeAt_of_le (Nat.zero_le _)
  have hr := (readable h).reads 0 (Nat.zero_le _) expr.write.length [] (Nat.le_of_eq (by rw [hw])) follows_nil
  have hs := (readable h).starts.solid.dropWhile_append []
  rw [hw, ReadsAs] at hr
  rw [append_nil] at hr hs
  have hd : Yields disjunction expr.write fun checked after => checked = expr.result ∧ Same after [] :=
    fun pos => hr pos
  have hwh : Yields predicateText expr.write fun checked after => checked = expr.result ∧ after = [] := by
    refine Yields.rule (Yields.bind (yields_blanks (Yields.bind ?_)))
    rw [hs]
    exact hd.imp fun checked after hc => Yields.bind (yields_blanks (yields_pure hc))
  obtain ⟨checked, after, hf, rfl, ha⟩ := hwh 0
  exact whole_eq_ok_iff.2 ⟨after, hf, ha⟩

/-- The text of an expression is read as that expression, whose references are the captures that occur in it. It fails
only where an integer in it has more digits than are read. -/
theorem read_write (h : expr.Expressible) :
    (expr.Fits → ∃ predicate, read (String.ofList expr.write) = .ok predicate ∧ predicate.expr = expr ∧
      predicate.references.Nodup ∧
      ∀ name, name ∈ predicate.references ↔ ∃ aspect, (Expr.capture name aspect).Occurs expr) ∧
    (¬ expr.Fits → read (String.ofList expr.write) = .error (.breakdown .number)) := by
  have hw := predicateText_whole_write h
  constructor
  · intro hf
    rw [result, if_pos hf] at hw
    refine ⟨{ source := String.ofList expr.write, expr := expr }, ?_, rfl, ?_, fun name => ?_⟩
    · unfold read
      rw [String.toList_ofList, hw]
    · exact (mergeSort_perm _ _).nodup_iff.2 (nodup_eraseDups _)
    · exact mem_nameSet.trans mem_references_iff_occurs
  · intro hf
    rw [result, if_neg hf] at hw
    unfold read
    rw [String.toList_ofList, hw]
    rfl

theorem read_write_nested :
    let expr : Expr := .conj [.disj [.compare .equal (.capture "x" none) (.constant (.number (.int 1))),
      .constant (.bool true)], .neg (.list [])]
    expr.write = "($x == 1 or true) and not []".toList ∧ expr.Fits ∧
      ∃ predicate, read (String.ofList expr.write) = .ok predicate ∧ predicate.expr = expr := by
  intro expr
  have he : expr.Expressible := by
    refine .conj (by decide) (forall_mem_cons.2 ⟨.disj (by decide) (forall_mem_cons.2 ⟨?_, ?_⟩), ?_⟩)
    · exact .compare .equal (.capture ⟨"x", by decide, by decide⟩ none) (.int 1)
    · exact forall_mem_singleton.2 (.bool true)
    · exact forall_mem_singleton.2 (.neg (.list (forall_mem_nil _)))
  have ho : (Expr.constant (.number (.int 1))).Fits := fits_int.2 (Nat.one_lt_pow (by decide) (by decide))
  have hc : (Expr.compare .equal (.capture "x" none) (.constant (.number (.int 1)))).Fits :=
    (fits_iff (by rintro _ ⟨⟩)).2 (forall_mem_cons.2 ⟨(fits_iff (by rintro _ ⟨⟩)).2 nofun, forall_mem_singleton.2 ho⟩)
  have hf : expr.Fits := by
    refine (fits_iff (by simp [expr])).2 (forall_mem_cons.2 ⟨?_, forall_mem_singleton.2 ?_⟩)
    · refine (fits_iff (by rintro _ ⟨⟩)).2 (forall_mem_cons.2 ⟨hc, forall_mem_singleton.2 ?_⟩)
      exact (fits_iff (by rintro _ ⟨⟩)).2 nofun
    · refine (fits_iff (by rintro _ ⟨⟩)).2 (forall_mem_singleton.2 ?_)
      exact (fits_iff (by rintro _ ⟨⟩)).2 nofun
  obtain ⟨predicate, hr, hexp, -⟩ := (read_write he).1 hf
  exact ⟨by decide, hf, predicate, hr, hexp⟩

end Predicate

end TreeLint
