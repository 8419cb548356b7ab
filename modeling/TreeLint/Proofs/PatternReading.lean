import TreeLint.Proofs.PatternTokens

/-!
# Reading written patterns

The text of a pattern is read as what the pattern means.

* `Pattern.Closed`, `Pattern.Final`: what may follow a pattern with a guard, and an alternation;
* `Pattern.Readable`: a term is read wherever it is written, in parentheses where they are needed;
* `Pattern.readable`: every term is;
* `Pattern.Whole.meaning_eq_readShape`: a whole pattern is read as what it means.
-/

namespace TreeLint

open List Predicate

namespace Pattern

open Reading

variable {text rest : List Char} {depth : Nat} {term inner first : Term} {others : List Term} {c : Char}

/-! ## What may follow -/

/-- A text that may follow a pattern with a guard: after blanks it is empty or starts with a stop. -/
def Closed (rest : List Char) : Prop :=
  Ends (rest.dropWhile isSpace) rest

/-- A text that may follow an alternation. -/
structure Final (rest : List Char) : Prop where
  closed : Closed rest
  noBar : (rest.dropWhile isSpace).head? ≠ some '|'

theorem Closed.apart (h : Closed rest) : Apart rest where
  parted c hc := by
    have hd : c ≠ '-' := by
      rintro rfl
      exact absurd (h.mem_edges hc) (by decide)
    simp [inKindName, (inert_of_mem_edges (h.mem_edges hc)).2.1, hd]
  plain c hc := by
    have hs := h.stops c hc
    constructor <;> rintro rfl <;> revert hs <;> decide

private theorem closed_cons (h : isStop c) (rest : List Char) : Closed (c :: rest) := by
  have hc : (c :: rest).dropWhile isSpace = c :: rest :=
    dropWhile_cons_of_neg (by simp [isSpace_of_isStop h])
  refine ⟨rfl, fun other ho => ?_⟩
  rw [hc] at ho
  rwa [← Option.some.inj ho]

private theorem final_cons (h : isStop c) (hc : c ≠ '|') (rest : List Char) : Final (c :: rest) where
  closed := closed_cons h rest
  noBar := by
    rw [dropWhile_cons_of_neg (by simp [isSpace_of_isStop h])]
    simpa using hc

private theorem final_nil : Final [] where
  closed := ⟨rfl, fun _ hc => by cases hc⟩
  noBar := by simp

/-! ## Lists -/

private theorem intercalate_writes (gap : List Char) (least : Nat) (term : Term) (terms : List Term) :
    gap.intercalate (Term.writes least (term :: terms)) =
      term.writeAt least ++ writeAll gap (Term.writeAt least) terms := by
  rw [Term.writes_eq_map, map_cons, intercalate_cons, writeAll_map]

/-! ## How a text starts -/

/-- A text that starts neither with a blank nor with a bracket. -/
def Starts (text : List Char) : Prop :=
  ∃ c more, text = c :: more ∧ isSpace c = false ∧ c ≠ '['

theorem Starts.solid (h : Starts text) : Solid text := by
  obtain ⟨c, more, ht, hc, -⟩ := h
  exact ⟨c, more, ht, hc⟩

theorem Starts.append (h : Starts text) (rest : List Char) : Starts (text ++ rest) := by
  obtain ⟨c, more, rfl, hc⟩ := h
  exact ⟨c, more ++ rest, rfl, hc⟩

private theorem starts_of_startsName (h : text.head?.any startsName) : Starts text := by
  obtain ⟨c, more, rfl, hc⟩ := Term.exists_eq_cons h
  refine ⟨c, more, rfl, ?_, ?_⟩
  · refine Bool.eq_false_iff.2 fun hs => ?_
    have hi := inert_of_mem_edges (mem_append_right _ (mem_spaces hs))
    rw [hi.1] at hc
    cases hc
  · rintro rfl
    revert hc
    decide

theorem starts_cons (h : (!isSpace c && c != '[') = true) (rest : List Char) : Starts (c :: rest) := by
  simp only [Bool.and_eq_true, Bool.not_eq_true', bne_iff_ne] at h
  exact ⟨c, rest, rfl, h⟩

theorem starts_writeAt (h : Starts term.write) (least : Nat) : Starts (term.writeAt least) := by
  rw [Term.writeAt, Term.enclose]
  split
  · exact starts_cons (by decide) _
  · exact h

private theorem starts_write (term : Term) : Starts term.write := by
  induction term using Term.induction with
  | step term ih =>
    cases term with
    | kind kind => exact starts_of_startsName kind.starts
    | node kind items => exact (starts_of_startsName kind.starts).append _
    | capture bound inner => exact (starts_of_startsName bound.starts).append _
    | wildcard | ellipsis | metavar | text | regex | negation | deep => exact starts_cons (by decide) _
    | oneOf first second others =>
      rw [Term.write, intercalate_cons]
      exact (starts_writeAt (ih first mem_cons_self) 1).append _
    | guarded inner guard => exact (starts_writeAt (ih inner mem_cons_self) 2).append _

private theorem solid_writeAt (least : Nat) (term : Term) : Solid (term.writeAt least) :=
  (starts_writeAt (starts_write term) least).solid

/-! ## Reading at every level -/

/-- A term is read wherever it is written, with more levels of nesting to spare than its text has characters. -/
structure Readable (term : Term) : Prop where
  unary : ∀ depth rest, (term.writeAt 2).length < depth → Apart rest →
    ReadsAs (unaryAt depth) (term.writeAt 2) rest term
  guarded : ∀ depth rest, (term.writeAt 1).length < depth → Closed rest →
    ReadsAs (guardedOf (unaryAt depth)) (term.writeAt 1) rest term
  alternation : ∀ depth rest, (term.writeAt 0).length < depth → Final rest →
    ReadsAs (alternationOf (unaryAt depth)) (term.writeAt 0) rest term

private theorem refuses_guardClause (h : Closed rest) (hs : Same text rest) : Refuses guardClause text := by
  have hh : (rest.dropWhile isSpace).head? ≠ some 'w' := by
    intro hw
    have hst := h.stops 'w' hw
    revert hst
    decide
  refine Refuses.rule (Yields.refuses (yields_blanks (refuses_keyword ?_).bind))
  rw [hs, isPrefixOf_of_head (by decide) hh]

theorem ReadsAs.guarded {unary : Reading (Predicate.Checked Shape)} (h : ReadsAs unary text rest term)
    (hr : Closed rest) : ReadsAs (guardedOf unary) text rest term := by
  refine Yields.rule (Yields.bind (h.imp fun checked after hc => ?_))
  exact Yields.bind (Refuses.optional (refuses_guardClause hr hc.2) (yields_pure hc))

private theorem seen_map (f : Shape → Shape) (h : ∀ shape, (f shape).bare = f shape.bare)
    (checked : Predicate.Checked Shape) : seen (checked.map f) = (do return f (← seen checked)) := by
  cases checked with
  | error stop => rfl
  | ok shape => exact congrArg Except.ok (h shape)

private theorem seenAs_checkAll {values : List (Predicate.Checked Shape)} {terms : List Term}
    (h : values.map seen = terms.map Term.meaning) :
    seenAs Shape.bareAll (fun fault : Fault => fault.failure.code) (checkAll values) =
      Term.meanings terms := by
  induction terms generalizing values with
  | nil =>
    obtain rfl := map_eq_nil_iff.1 h
    rfl
  | cons term terms ih =>
    obtain ⟨value, values, rfl, hv, hvl⟩ := map_eq_cons_iff.1 h
    rw [Term.meanings, ← hv, ← ih hvl, checkAll]
    symm
    exact seenAs_bind fun shape => seenAs_bind fun shapes => rfl

private theorem separates_bar : Separates (do blanks; literal "|"; blanks) " | ".toList :=
  separates_literal (by decide)

theorem separates_comma : Separates (do blanks; literal ","; blanks) ", ".toList :=
  separates_literal (by decide)

private theorem closed_bar (rest : List Char) : Closed (" | ".toList ++ rest) := by
  refine ⟨rfl, fun c hc => ?_⟩
  rw [dropWhile_append_of_ne_nil separates_bar.ne_blank] at hc
  cases hc
  rfl

private theorem Final.refuses_bar (h : Final rest) (hs : Same text rest) :
    Refuses (do blanks; literal "|"; blanks) text := by
  refine refuses_separator ?_
  rw [hs]
  exact isPrefixOf_of_head rfl h.noBar

private theorem ReadsAs.alternation {unary : Reading (Predicate.Checked Shape)}
    (h : ReadsAs (guardedOf unary) text rest term)
    (hr : Final rest) : ReadsAs (alternationOf unary) text rest term := by
  refine Yields.rule (Yields.bind (Yields.bind (h.imp fun checked after hc => ?_)))
  have hb := hr.refuses_bar hc.2
  refine Yields.bind (Yields.many (Refuses.upTo hb.bind (yields_pure (yields_pure ⟨?_, hc.2⟩))))
  rw [← hc.1]
  cases checked <;> rfl

/-- Brackets make an operand of an alternation, one level deeper. -/
theorem ReadsAs.group {term : Term} (h : ReadsAs (alternationOf (unaryAt depth)) text (')' :: rest) term)
    (hs : Solid text) : ReadsAs (unaryAt (depth + 1)) ('(' :: (text ++ [')'])) rest term := by
  rw [ReadsAs, cons_append, append_assoc, singleton_append]
  refine yields_unaryAt (by simp) (by simp) (.inl (refuses_name (by simp; decide))) (Yields.rule (Yields.either ?_))
  refine Yields.rule (Yields.bind (yields_literal_cons rfl (Yields.bind (yields_blanks ?_))))
  rw [hs.dropWhile_append]
  refine Yields.bind (h.imp fun checked after hc => Yields.bind (yields_blanks ?_))
  rw [hc.2, dropWhile_cons_of_neg (by decide)]
  exact Yields.bind (yields_literal_cons rfl (yields_pure ⟨hc.1, rfl⟩))

private theorem unary_of_alternation (hl : term.level < 2) (h : ∀ depth rest, term.write.length < depth → Final rest →
      ReadsAs (alternationOf (unaryAt depth)) term.write rest term) (depth : Nat) (rest : List Char)
    (hd : (term.writeAt 2).length < depth) : ReadsAs (unaryAt depth) (term.writeAt 2) rest term := by
  rw [Term.writeAt_of_lt hl, length_cons, length_append] at hd
  rw [Term.writeAt_of_lt hl]
  obtain ⟨depth, rfl⟩ := Nat.exists_eq_succ_of_ne_zero (Nat.ne_of_gt (Nat.lt_of_le_of_lt (Nat.zero_le _) hd))
  exact ReadsAs.group (h depth _ (by omega) (final_cons rfl (by decide) rest)) (starts_write term).solid

private theorem readable_of_unary (hl : term.level = 2) (h : ∀ depth rest, term.write.length < depth + 1 → Apart rest →
      ReadsAs (unaryAt (depth + 1)) term.write rest term) : Readable term := by
  have hw : ∀ least ≤ 2, term.writeAt least = term.write := fun least hls =>
    Term.writeAt_of_le (hl ▸ hls)
  have hu : ∀ depth rest, term.write.length < depth → Apart rest →
      ReadsAs (unaryAt depth) term.write rest term := by
    intro depth rest hd hr
    cases depth with
    | zero => exact absurd hd (Nat.not_lt_zero _)
    | succ depth => exact h depth rest hd hr
  constructor
  · rw [hw 2 (by decide)]
    exact hu
  · rw [hw 1 (by decide)]
    exact fun depth rest hd hr => (hu depth rest hd hr.apart).guarded hr
  · rw [hw 0 (by decide)]
    exact fun depth rest hd hr =>
      ((hu depth rest hd hr.closed.apart).guarded hr.closed).alternation hr

private theorem readable_of_alternation (hl : term.level = 0)
    (h : ∀ depth rest, term.write.length < depth → Final rest →
      ReadsAs (alternationOf (unaryAt depth)) term.write rest term) : Readable term := by
  have hu := unary_of_alternation (by omega) h
  constructor
  · exact fun depth rest hd _ => hu depth rest hd
  · rw [Term.writeAt_of_lt (by omega), ← Term.writeAt_of_lt (by omega : term.level < 2)]
    exact fun depth rest hd hr => (hu depth rest hd).guarded hr
  · rw [Term.writeAt_zero]
    exact h

private theorem readable_of_guarded (hl : term.level = 1) (h : ∀ depth rest, term.write.length < depth → Closed rest →
      ReadsAs (guardedOf (unaryAt depth)) term.write rest term) : Readable term := by
  have ha : ∀ depth rest, term.write.length < depth → Final rest →
      ReadsAs (alternationOf (unaryAt depth)) term.write rest term :=
    fun depth rest hd hr => (h depth rest hd hr.closed).alternation hr
  constructor
  · exact fun depth rest hd _ => unary_of_alternation (by omega) ha depth rest hd
  · rw [Term.writeAt_of_le (by omega)]
    exact h
  · rw [Term.writeAt_zero]
    exact ha

/-! ## Guards -/

private theorem GuardText.meaning_eq (guard : GuardText) {checked : Predicate.Checked Predicate.Expr}
    (h : predicateText.whole guard.text.toList = .ok checked) :
    guard.meaning = (Predicate.outcome checked).map fun expr => { source := "", expr } := by
  rw [GuardText.meaning]
  unfold Predicate.read
  split
  next heq =>
    rw [h] at heq
    cases heq
  next stop heq =>
    cases h.symm.trans heq
    cases stop <;> rfl
  next expr heq =>
    cases h.symm.trans heq
    rfl

private theorem yields_disjunction (guard : GuardText) (hr : Closed rest) :
    Yields disjunction ((guard.text.toList ++ rest).dropWhile isSpace) fun checked after =>
      ((Predicate.outcome checked).map fun expr => { source := "", expr }) = guard.meaning ∧ Same after rest := by
  intro pos
  obtain ⟨checked, hc⟩ := guard.reads
  obtain ⟨checked', after, hf, ha, ho⟩ := disjunction_amid hc hr pos
  exact ⟨checked', after, hf, by rw [ho, guard.meaning_eq hc], ha⟩

theorem dropWhile_space {word : List Char} (h : Solid word) (rest : List Char) :
    (' ' :: (word ++ rest)).dropWhile isSpace = word ++ rest := by
  rw [dropWhile_cons_of_pos (by decide), h.dropWhile_append]

theorem yields_keyword (word : String) {post : Unit → List Char → Prop} (h : post () (' ' :: rest)) :
    Yields (keyword word) (word.toList ++ ' ' :: rest) post := by
  have hs := @Predicate.inert_of_mem_edges ' ' (mem_append_right _ (mem_spaces (by decide)))
  have hr : ∀ c ∈ (' ' :: rest).head?, isWordPart c.toNat = false := by
    rintro _ ⟨⟩
    exact hs.2.2.1
  refine Yields.rule (Yields.bind (yields_takeFirst (wordLength?_self_append word hr) (yields_pure ?_)))
  rwa [drop_left]

private theorem solid_where : Solid "where".toList :=
  ⟨'w', "here".toList, by decide, by decide⟩

private theorem GuardText.dropWhile_write (guard : GuardText) (rest : List Char) :
    (guard.write ++ rest).dropWhile isSpace = "where".toList ++ ' ' :: (guard.text.toList ++ rest) := by
  have hw : guard.write ++ rest = ' ' :: ("where".toList ++ ' ' :: (guard.text.toList ++ rest)) := by
    simp [GuardText.write]
  rw [hw, dropWhile_space solid_where]

private theorem yields_guardClause (guard : GuardText) (hr : Closed rest) (hs : Same text (guard.write ++ rest)) :
    Yields guardClause text fun checked after =>
      seenAs Predicate.bare (fun fault : Fault => fault.failure.code) checked = guard.meaning ∧
        Same after rest := by
  refine Yields.rule (Yields.bind (yields_blanks ?_))
  rw [hs, guard.dropWhile_write]
  refine Yields.bind (yields_keyword "where" (Yields.bind (yields_blanks ?_)))
  rw [dropWhile_cons_of_pos (by decide)]
  refine Yields.bind ((yields_withText (yields_disjunction guard hr)).imp fun pair after hp => yields_pure ?_)
  obtain ⟨checked, text⟩ := pair
  refine ⟨?_, hp.2⟩
  rw [← hp.1]
  cases checked <;> rfl

private theorem GuardText.apart_write (guard : GuardText) (rest : List Char) : Apart (guard.write ++ rest) where
  parted c hc := by
    cases hc
    decide
  plain c hc := by
    rw [GuardText.dropWhile_write] at hc
    cases hc
    decide

private theorem seen_withGuard (checked : Predicate.Checked Shape) (guard : Predicate.Checked Predicate) :
    seen (withGuard checked (some guard)) = (do
      let shape ← seen checked
      return .guarded shape (← seenAs Predicate.bare (fun fault : Fault => fault.failure.code) guard)) := by
  cases checked with
  | error stop => rfl
  | ok shape => cases guard <;> rfl

private theorem Readable.guardedOf (h : Readable inner) (guard : GuardText)
    (hd : (inner.guarded guard).write.length < depth) (hr : Closed rest) :
    ReadsAs (guardedOf (unaryAt depth)) (inner.guarded guard).write rest (inner.guarded guard) := by
  have hw : (inner.guarded guard).write = inner.writeAt 2 ++ guard.write := rfl
  rw [hw, length_append] at hd
  rw [ReadsAs, hw, append_assoc]
  refine Yields.rule (Yields.bind ?_)
  refine (h.unary depth _ (by omega) (guard.apart_write rest)).imp fun checked after hc => ?_
  -- a guard is not tried at the end of a text, but here its word is still to come
  have hne : after ≠ [] := by
    rintro rfl
    have hs := hc.2
    rw [Same, GuardText.dropWhile_write] at hs
    cases hs
  refine Yields.bind (Yields.optional hne ?_)
  refine (yields_guardClause guard hr hc.2).imp fun checkedGuard after hg => yields_pure ⟨?_, hg.2⟩
  rw [seen_withGuard, hc.1, hg.1, Term.meaning]

/-! ## Alternations -/

private theorem seen_oneOf {values : List (Predicate.Checked Shape)} {second : Term} {f : List Shape → Shape}
    (hf : ∀ first second others, f (first :: second :: others) = .oneOf (first :: second :: others))
    (h : values.map seen = (first :: second :: others).map Term.meaning) :
    seen ((checkAll values).map f) = (Term.oneOf first second others).meaning := by
  rw [Term.meaning_oneOf, ← seenAs_checkAll h]
  obtain ⟨value, values, rfl, -, hv⟩ := map_eq_cons_iff.1 h
  obtain ⟨value', values, rfl, -, -⟩ := map_eq_cons_iff.1 hv
  cases value with
  | error stop => rfl
  | ok shape =>
    cases value' with
    | error stop => rfl
    | ok shape' =>
      simp only [checkAll]
      cases checkAll values with
      | error stop => rfl
      | ok shapes => exact congrArg (fun shape : Shape => Except.ok shape.bare) (hf shape shape' shapes)

private theorem readsAs_oneOf {second : Term} (h : ∀ term ∈ first :: second :: others, Readable term)
    (hd : (Term.oneOf first second others).write.length < depth) (hr : Final rest) :
    ReadsAs (alternationOf (unaryAt depth)) (Term.oneOf first second others).write rest
      (.oneOf first second others) := by
  have hw : (Term.oneOf first second others).write =
      " | ".toList.intercalate (Term.writes 1 (first :: second :: others)) := rfl
  have hl : ∀ term ∈ first :: second :: others, (term.writeAt 1).length < depth := by
    intro term ht
    refine Nat.lt_of_le_of_lt (length_le_intercalate " | ".toList ?_) (hw ▸ hd)
    rw [Term.writes_eq_map]
    exact mem_map_of_mem ht
  have ha : Yields (separated (guardedOf (unaryAt depth)) do blanks; literal "|"; blanks)
      (first.writeAt 1 ++ (writeAll " | ".toList (Term.writeAt 1) (second :: others) ++ rest)) fun values after =>
        values.map seen = (first :: second :: others).map Term.meaning ∧ Same after rest :=
    separates_bar.yields_separated (fun term ht _ hf => (h term ht).guarded depth _ (hl term ht) hf)
      (fun term _ => solid_writeAt 1 term) closed_bar hr.closed (fun _ => hr.refuses_bar)
  rw [ReadsAs, hw, intercalate_writes, append_assoc]
  refine Yields.rule (Yields.bind (ha.imp fun values after hv => yields_pure ⟨?_, hv.2⟩))
  exact seen_oneOf (fun _ _ _ => rfl) hv.1

/-! ## Lists of children and of siblings -/

private theorem refuses_unaryAt (depth : Nat) (rest : List Char) : Refuses (unaryAt depth) (')' :: rest) := by
  cases depth with
  | zero => exact refuses_fail
  | succ depth =>
    have hn : ∀ c ∈ (')' :: rest).head?, startsName c = false := by
      intro c hc
      cases hc
      decide
    refine Refuses.rule (Refuses.both (refuses_literal_of_head (c := '!') rfl (by simp)).bind.rule ?_)
    refine Refuses.both (refuses_literal_of_head (c := '>') rfl (by simp)).bind.rule ?_
    refine Refuses.both (refuses_name hn).bind.rule (Refuses.both (Refuses.rule ?_) refuses_fail)
    refine Refuses.both (refuses_group (by simp)) ?_
    refine Refuses.both (refuses_literal_of_head (c := '.') rfl (by simp)).bind.rule ?_
    refine Refuses.both (refuses_wildcard (by simp)).bind.rule ?_
    refine Refuses.both (refuses_metavar (by simp)).bind.rule ?_
    refine Refuses.both (refuses_stringLiteral (by simp) (by simp)).bind ?_
    refine Refuses.both (refuses_regex (by simp)).bind.rule ?_
    exact Refuses.both (refuses_kindName hn).bind.rule refuses_fail

private theorem refuses_elements (depth : Nat) (rest : List Char) :
    Refuses (elements (alternationOf (unaryAt depth))) (')' :: rest) :=
  (refuses_unaryAt depth rest).bind.rule.bind.bind.rule.bind.bind.rule

private theorem yields_elements (h : ∀ term ∈ first :: others, Readable term)
    (hd : (", ".toList.intercalate (Term.writes 0 (first :: others))).length < depth) (hc : isStop c)
    (hcm : c ≠ ',') (hb : c ≠ '|') :
    Yields (elements (alternationOf (unaryAt depth)))
      (", ".toList.intercalate (Term.writes 0 (first :: others)) ++ c :: rest) fun checked after =>
        seenAs Shape.bareAll (fun fault : Fault => fault.failure.code) checked =
          Term.meanings (first :: others) ∧ Same after (c :: rest) := by
  have hl : ∀ term ∈ first :: others, (term.writeAt 0).length < depth := by
    intro term ht
    refine Nat.lt_of_le_of_lt (length_le_intercalate ", ".toList ?_) hd
    rw [Term.writes_eq_map]
    exact mem_map_of_mem ht
  have ha : Yields (separated (alternationOf (unaryAt depth)) do blanks; literal ","; blanks)
      (first.writeAt 0 ++ (writeAll ", ".toList (Term.writeAt 0) others ++ c :: rest)) fun values after =>
        values.map seen = (first :: others).map Term.meaning ∧ Same after (c :: rest) :=
    separates_comma.yields_separated (fun term ht _ hf => (h term ht).alternation depth _ (hl term ht) hf)
      (fun term _ => solid_writeAt 0 term) (fun _ => final_cons rfl (by decide) _) (final_cons hc hb rest)
      fun _ => refuses_comma (isSpace_of_isStop hc) hcm
  rw [intercalate_writes, append_assoc]
  refine Yields.rule (Yields.bind (ha.imp fun values after hv => yields_pure ⟨?_, hv.2⟩))
  exact seenAs_checkAll hv.1

private theorem solid_intercalate (least : Nat) (term : Term) (terms : List Term) :
    Solid (", ".toList.intercalate (Term.writes least (term :: terms))) := by
  rw [intercalate_writes]
  exact ((starts_writeAt (starts_write term) least).append _).solid

private theorem yields_childList {items : List Term} (h : ∀ term ∈ items, Readable term)
    (hd : (", ".toList.intercalate (Term.writes 0 items)).length < depth) :
    Yields (childList (alternationOf (unaryAt depth)))
      ('(' :: (", ".toList.intercalate (Term.writes 0 items) ++ ')' :: rest)) fun checked after =>
        seenAs Shape.bareAll (fun fault : Fault => fault.failure.code) checked = Term.meanings items ∧
          after = rest := by
  refine Yields.rule (Yields.bind (yields_blanks ?_))
  rw [dropWhile_cons_of_neg (by decide)]
  refine Yields.bind (yields_literal_cons rfl (Yields.bind (yields_blanks (Yields.bind ?_))))
  cases items with
  | nil =>
    refine Refuses.optional ?_ (Yields.bind (yields_blanks ?_))
    · exact refuses_elements depth rest
    · exact Yields.bind (yields_literal_cons rfl (yields_pure ⟨rfl, rfl⟩))
  | cons first others =>
    rw [(solid_intercalate 0 first others).dropWhile_append]
    refine Yields.optional (by simp) ?_
    refine (yields_elements h hd rfl (by decide) (by decide)).imp fun checked after hc => ?_
    refine Yields.bind (yields_blanks ?_)
    rw [hc.2, dropWhile_cons_of_neg (by decide)]
    exact Yields.bind (yields_literal_cons rfl (yields_pure ⟨hc.1, rfl⟩))

private theorem readsAs_node {items : List Term} (h : ∀ term ∈ items, Readable term) (kind : KindName)
    (hd : (Term.node kind items).write.length < depth + 1) :
    ReadsAs (unaryAt (depth + 1)) (Term.node kind items).write rest (.node kind items) := by
  have hw : (Term.node kind items).write ++ rest =
      kind.text.toList ++ '(' :: (", ".toList.intercalate (Term.writes 0 items) ++ ')' :: rest) := by
    simp [Term.write]
  have hl : (", ".toList.intercalate (Term.writes 0 items)).length < depth := by
    rw [Term.write] at hd
    simp only [length_append, length_cons] at hd
    omega
  have ho : ∀ c ∈ ('(' :: (", ".toList.intercalate (Term.writes 0 items) ++ ')' :: rest)).head?,
      inKindName c = false := by
    intro c hc
    cases hc
    decide
  rw [ReadsAs, hw]
  refine yields_unaryAt_kind kind ho (by rw [dropWhile_cons_of_neg (by decide)]; simp) (Yields.rule ?_)
  refine Yields.bind ((kind.yields ho).imp ?_)
  rintro _ _ ⟨rfl, rfl⟩
  refine Yields.bind (Yields.optional (by simp) ((yields_childList h hl).imp ?_))
  rintro checked _ ⟨hch, rfl⟩
  refine yields_pure ⟨?_, rfl⟩
  rw [Term.meaning, ← hch]
  cases checked <;> rfl

/-! ## Operators in front -/

/-- A prefix operator before an operand is read with the operand. -/
theorem Readable.operand (h : Readable inner) {f : Shape → Shape} (hf : ∀ shape, (f shape).bare = f shape.bare)
    (hm : term.meaning = do return f (← inner.meaning)) (hd : (inner.writeAt 2).length < depth)
    (hr : Apart rest) (hs : Same text (inner.writeAt 2 ++ rest)) :
    Yields (do blanks; return (← unaryAt depth).map f) text fun checked after =>
      seen checked = term.meaning ∧ Same after rest := by
  refine Yields.bind (yields_blanks ?_)
  rw [hs, (solid_writeAt 2 inner).dropWhile_append]
  refine Yields.bind ((h.unary depth rest hd hr).imp fun checked after hc => yields_pure ⟨?_, hc.2⟩)
  rw [seen_map f hf, hc.1, hm]

private theorem same_space (text : List Char) : Same (' ' :: text) text :=
  dropWhile_cons_of_pos (by decide)

theorem Readable.negation (h : Readable inner) (hd : inner.negation.write.length < depth + 1) (hr : Apart rest) :
    ReadsAs (unaryAt (depth + 1)) inner.negation.write rest inner.negation := by
  refine Yields.rule (Yields.either (Yields.rule (Yields.bind (yields_literal_cons rfl ?_))))
  exact h.operand (fun _ => rfl) rfl (Nat.lt_of_succ_lt_succ hd) hr rfl

theorem Readable.deep (h : Readable inner) (hd : inner.deep.write.length < depth + 1) (hr : Apart rest) :
    ReadsAs (unaryAt (depth + 1)) inner.deep.write rest inner.deep := by
  have hw : inner.deep.write = ">>".toList ++ ' ' :: inner.writeAt 2 := by
    rw [show ">>".toList = ['>', '>'] by decide]
    rfl
  rw [hw, length_append, length_cons] at hd
  rw [ReadsAs, hw, append_assoc]
  refine Yields.rule (Refuses.either (refuses_literal_of_head (c := '!') rfl (by simp)).bind.rule ?_)
  refine Yields.either (Yields.rule (Yields.bind (yields_literal ?_)))
  exact h.operand (fun _ => rfl) rfl (by omega) hr (same_space _)

theorem Readable.capture {inner : Term} (h : Readable inner) (bound : CaptureName)
    (hdp : (Term.capture bound inner).write.length < depth + 1) (hr : Apart rest) :
    ReadsAs (unaryAt (depth + 1)) (Term.capture bound inner).write rest (.capture bound inner) := by
  have hw : (Term.capture bound inner).write = bound.text.toList ++ ':' :: ' ' :: inner.writeAt 2 := rfl
  have hl : (inner.writeAt 2).length < depth := by
    rw [hw, length_append, length_cons, length_cons] at hdp
    omega
  have hh : ∀ d, startsName d = false →
      (bound.text.toList ++ (':' :: ' ' :: inner.writeAt 2 ++ rest)).head? ≠ some d :=
    fun d hd => Term.head?_ne_of_startsName bound.starts hd _
  rw [ReadsAs, hw, append_assoc]
  refine Yields.rule (Refuses.either (refuses_literal_of_head (c := '!') rfl (hh _ (by decide))).bind.rule ?_)
  refine Refuses.either (refuses_literal_of_head (c := '>') rfl (hh _ (by decide))).bind.rule ?_
  refine Yields.either (Yields.rule (Yields.bind ((bound.yields ?_).imp ?_)))
  · intro d hd
    cases hd
    decide
  · rintro _ _ ⟨rfl, rfl⟩
    refine Yields.bind (yields_blanks ?_)
    rw [cons_append, dropWhile_cons_of_neg (by decide)]
    refine Yields.bind (yields_literal_cons rfl ?_)
    exact h.operand (fun _ => rfl) rfl hl hr (same_space _)

/-! ## All patterns -/

/-- Every term that is written is read back, by induction on the term. -/
theorem readable (term : Term) : Readable term := by
  induction term using Term.induction with
  | step term ih =>
    cases term with
    | kind kind => exact readable_of_unary rfl fun _ _ _ hr => readsAs_kind kind hr
    | node kind items => exact readable_of_unary rfl fun _ _ hd _ => readsAs_node ih kind hd
    | wildcard => exact readable_of_unary rfl fun _ _ _ hr => readsAs_wildcard hr
    | ellipsis => exact readable_of_unary rfl fun _ _ _ _ => readsAs_ellipsis
    | metavar bound => exact readable_of_unary rfl fun _ _ _ hr => readsAs_metavar bound hr
    | text value => exact readable_of_unary rfl fun _ _ _ _ => readsAs_text value
    | regex src => exact readable_of_unary rfl fun _ _ _ _ => readsAs_regex src
    | capture bound inner =>
      have hi := ih inner mem_cons_self
      exact readable_of_unary rfl fun _ _ hd hr => hi.capture bound hd hr
    | negation inner =>
      have hi := ih inner mem_cons_self
      exact readable_of_unary rfl fun _ _ hd hr => hi.negation hd hr
    | deep inner =>
      have hi := ih inner mem_cons_self
      exact readable_of_unary rfl fun _ _ hd hr => hi.deep hd hr
    | guarded inner guard =>
      have hi := ih inner mem_cons_self
      exact readable_of_guarded rfl fun _ _ hd hr => hi.guardedOf guard hd hr
    | oneOf first second others =>
      exact readable_of_alternation rfl fun _ _ hd hr => readsAs_oneOf ih hd hr

namespace Whole

private theorem yields_single (term : Term) (hd : term.write.length < depth) :
    Yields (either (Pattern.siblings (alternationOf (unaryAt depth))) (alternationOf (unaryAt depth))) term.write
      fun checked after => seen checked = (single term).meaning ∧ Same after [] := by
  obtain ⟨c, more, hw, -, hb⟩ := starts_write term
  have hh : term.write.head? ≠ some '[' := by
    rw [hw]
    simpa using hb
  refine Refuses.either (refuses_literal_of_head rfl hh).bind.rule ?_
  have ht := (readable term).alternation depth [] (by rwa [Term.writeAt_zero]) final_nil
  rwa [ReadsAs, Term.writeAt_zero, append_nil] at ht

private theorem yields_siblings (first : Term) (others : List Term) (guard : Option GuardText)
    (hd : (siblings first others guard).write.length < depth) :
    Yields (Pattern.siblings (alternationOf (unaryAt depth))) (siblings first others guard).write
      fun checked after => seen checked = (siblings first others guard).meaning ∧ Same after [] := by
  have hl : (", ".toList.intercalate (Term.writes 0 (first :: others))).length < depth := by
    rw [write, length_cons, length_append] at hd
    omega
  refine Yields.rule (Yields.bind (yields_literal_cons rfl (Yields.bind (yields_blanks ?_))))
  rw [(solid_intercalate 0 first others).dropWhile_append]
  refine Yields.bind ((yields_elements (fun term _ => readable term) hl rfl (by decide) (by decide)).imp ?_)
  intro items after hi
  refine Yields.bind (yields_blanks ?_)
  rw [hi.2, dropWhile_cons_of_neg (by decide)]
  refine Yields.bind (yields_literal_cons rfl (Yields.bind ?_))
  have hs : seen (items.map .siblings) = do return .siblings (← Term.meanings (first :: others)) := by
    rw [← hi.1]
    cases items <;> rfl
  cases guard with
  | none => exact Refuses.optional (refuses_guardClause final_nil.closed rfl) (yields_pure ⟨hs, rfl⟩)
  | some guard =>
    have hsa : Same guard.write (guard.write ++ []) := by rw [append_nil, Same]
    refine Yields.optional (by simp [GuardText.write]) ?_
    refine (yields_guardClause guard final_nil.closed hsa).imp fun checked after hc => ?_
    refine yields_pure ⟨?_, hc.2⟩
    rw [seen_withGuard, hs, hc.1, meaning]
    simp

private theorem yields_patternText (pattern : Whole) (hd : pattern.write.length < depth) :
    Yields (patternText depth) pattern.write fun checked after => seen checked = pattern.meaning ∧ after = [] := by
  have hs : pattern.write.dropWhile isSpace = pattern.write := by
    cases pattern with
    | single term =>
      have ht := (starts_write term).solid.dropWhile_append []
      rwa [append_nil] at ht
    | siblings => exact dropWhile_cons_of_neg (by decide)
  have hsh : Yields (either (Pattern.siblings (alternationOf (unaryAt depth))) (alternationOf (unaryAt depth)))
      pattern.write fun checked after => seen checked = pattern.meaning ∧ Same after [] := by
    cases pattern with
    | single term => exact yields_single term hd
    | siblings first others guard => exact Yields.either (yields_siblings first others guard hd)
  refine Yields.rule (Yields.bind (yields_blanks ?_))
  rw [hs]
  refine Yields.bind (hsh.rule.imp fun checked after hc => Yields.bind (yields_blanks ?_))
  exact yields_pure hc

/-- What a pattern means is what is read from its text, up to the sources of guards. -/
theorem meaning_eq_readShape (pattern : Whole) :
    pattern.meaning = seenAs Shape.bare Failure.code (readShape (String.ofList pattern.write)) := by
  have hd : pattern.write.length < (String.ofList pattern.write).length + 1 := by
    rw [String.length_ofList]
    exact Nat.lt_succ_self _
  obtain ⟨checked, after, hf, hm, ha⟩ := pattern.yields_patternText hd 0
  have hw : (patternText ((String.ofList pattern.write).length + 1)).whole (String.ofList pattern.write).toList =
      .ok checked := by
    rw [String.toList_ofList]
    exact whole_eq_ok_iff.2 ⟨after, hf, ha⟩
  rw [← hm]
  unfold readShape
  split
  next heq =>
    rw [hw] at heq
    cases heq
  next stop heq =>
    cases hw.symm.trans heq
    cases stop <;> rfl
  next shape heq =>
    cases hw.symm.trans heq
    rfl

end Whole

end Pattern

end TreeLint
