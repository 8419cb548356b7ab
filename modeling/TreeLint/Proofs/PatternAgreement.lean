import TreeLint.Proofs.CheckedGrammar
import TreeLint.Proofs.PatternReading

/-!
# The two notations of patterns agree

A pattern that is written as text and one that is written as a form compile alike.

* `Pattern.Agrees`: two patterns differ in no more than the texts that they and their guards were read from;
* `Pattern.SameOutcome`: two compilations fail with one code, or give patterns that agree;
* `Pattern.compile_agrees`: so do those of a pattern in its two notations, unless it is a text alone, whose form is a
  string and is taken for the text of a pattern (`Pattern.lone_text_taken_for_source`).
-/

namespace TreeLint

namespace Pattern

/-- Two patterns that differ in no more than the texts that they and their guards were read from. -/
structure Agrees (first second : Pattern) : Prop where
  root_eq : first.root.bare = second.root.bare
  entries_eq : first.root.entries = second.root.entries
  captures_eq : first.captures = second.captures
  sequenceCaptures_eq : first.sequenceCaptures = second.sequenceCaptures
  anchorKinds_eq : first.anchorKinds = second.anchorKinds

private theorem agrees_of_bare_eq {first second : Pattern} (h : first.root.bare = second.root.bare) :
    Agrees first second := by
  have hf := first.root.alike_bare
  have hs := second.root.alike_bare
  rw [h] at hf
  constructor
  · exact h
  · rw [← first.root.entries_bare, h, second.root.entries_bare]
  · rw [captures, captures, ← hf.mayBind_eq, hs.mayBind_eq]
  · rw [sequenceCaptures, sequenceCaptures, ← hf.runNames_eq, hs.runNames_eq]
  · rw [anchorKinds, anchorKinds, ← hf.kindsMatched_eq, hs.kindsMatched_eq]

/-- Two compilations that fail with one code, or give patterns that agree. -/
inductive SameOutcome : Except (Stop Failure) Pattern → Except (Stop Failure) Pattern → Prop
  | failed {stop stop' : Stop Failure} (h : stop.map Failure.code = stop'.map Failure.code) :
    SameOutcome (.error stop) (.error stop')
  | compiled {pattern pattern' : Pattern} (h : Agrees pattern pattern') : SameOutcome (.ok pattern) (.ok pattern')

variable {g : Grammar}

/-- Shapes that differ in no more than the texts of guards compile alike. -/
private theorem sameOutcome_compileShape {shape shape' : Shape} (h : shape.bare = shape'.bare) (src source' : String) :
    SameOutcome (compileShape g src shape) (compileShape g source' shape') := by
  have hc := checkTop_bare g shape
  rw [h, checkTop_bare g shape'] at hc
  have hcd : ∀ (src : String) (stop : Stop Defect),
      (stop.map (Defect.failure src)).map Failure.code = (stop.map Defect.bare).map Defect.code := by
    intro src stop
    cases stop with
    | fault defect => exact congrArg Stop.fault defect.code_bare.symm
    | breakdown breakdown => rfl
  rw [compileShape, compileShape]
  cases hf : checkTop g shape with
  | error stop =>
    rw [hf] at hc
    cases hs : checkTop g shape' with
    | error stop' =>
      rw [hs] at hc
      have hst : stop'.map Defect.bare = stop.map Defect.bare := Except.error.inj hc
      exact .failed (by rw [hcd, hcd, hst])
    | ok root =>
      rw [hs] at hc
      cases hc
  | ok root =>
    rw [hf] at hc
    cases hs : checkTop g shape' with
    | error stop' =>
      rw [hs] at hc
      cases hc
    | ok root' =>
      rw [hs] at hc
      exact .compiled (agrees_of_bare_eq (Except.ok.inj hc).symm)

private theorem sameOutcome_of_seenAs_eq {first second : Except (Stop Failure) Shape}
    (h : seenAs Shape.bare Failure.code first = seenAs Shape.bare Failure.code second) (src source' : String) :
    SameOutcome (first >>= compileShape g src) (second >>= compileShape g source') := by
  cases first with
  | error stop =>
    cases second with
    | error stop' => exact .failed (Except.error.inj h)
    | ok shape => cases h
  | ok shape =>
    cases second with
    | error stop => cases h
    | ok shape' => exact sameOutcome_compileShape (Except.ok.inj h) src source'

mutual

private theorem Term.isWritable_form (term : Term) : term.form.isWritable := by
  cases term with
  | node _ items => exact Term.areWritable_forms items
  | capture _ inner | negation inner | deep inner | guarded inner _ =>
    simp [form, Sexp.isWritable, Sexp.isWritable.areWritable, inner.isWritable_form]
  | oneOf first second others =>
    simp [form, Sexp.isWritable, Sexp.isWritable.areWritable, first.isWritable_form, second.isWritable_form,
      Term.areWritable_forms others]
  | _ => rfl

private theorem Term.areWritable_forms (terms : List Term) : Sexp.isWritable.areWritable (forms terms) := by
  cases terms with
  | nil => rfl
  | cons term terms =>
    simp [forms, Sexp.isWritable.areWritable, term.isWritable_form, Term.areWritable_forms terms]

end

/-- The form of a pattern holds no numbers, so it can be written. -/
private theorem Whole.isWritable_form (pattern : Whole) : pattern.form.isWritable := by
  cases pattern with
  | single term => exact term.isWritable_form
  | siblings first others guard =>
    have hf := Term.areWritable_forms (first :: others)
    cases guard <;> simp [form, Sexp.isWritable, Sexp.isWritable.areWritable, hf]

private theorem Whole.ofSexp?_form {pattern : Whole} (h : ∀ value, pattern ≠ .single (.text value)) :
    Given.ofSexp? pattern.form = some (.form pattern.form) := by
  cases pattern with
  | single term =>
    cases term with
    | text value => exact absurd rfl (h value)
    | _ => rfl
  | siblings first others guard => cases guard <;> rfl

/-- A pattern that is not a text alone compiles from its form as it does from its text. -/
theorem compile_agrees (grammar : Grammar) (pattern : Whole) (h : ∀ value, pattern ≠ .single (.text value)) :
    ∃ given, Given.ofSexp? pattern.form = some given ∧
      SameOutcome (compileGiven grammar (.text (String.ofList pattern.write))) (compileGiven grammar given) := by
  -- both notations are read as what the pattern means
  have hr := pattern.meaning_eq_readShape.symm.trans pattern.meaning_eq_shapeOf
  refine ⟨_, Whole.ofSexp?_form h, ?_⟩
  rw [compileGiven_form pattern.isWritable_form]
  exact sameOutcome_of_seenAs_eq hr _ _

def loopKind : KindName :=
  ⟨"A", by decide, by decide, by decide⟩

/-- A run of siblings with operators inside operators and a guard on the whole of it. -/
def nested : Whole :=
  .siblings (.guarded (.capture ⟨"x", by decide, by decide⟩
        (.node loopKind [.text "a\"\\", .ellipsis, .metavar ⟨"y", by decide, by decide⟩]))
      ⟨"x.text == \") | \" and not y", exists_eq_ok (by decide +kernel)⟩)
    [.negation (.oneOf (.kind loopKind) (.deep .wildcard)
      [.regex ⟨"a|\\w+", by decide, by decide, by decide, by decide⟩])]
    (some ⟨"x in [1, \"b\"]", exists_eq_ok (by decide +kernel)⟩)

theorem compile_agrees_of_nested : ∃ grammar, Grammar.build Grammar.loop = .ok grammar ∧
    String.ofList nested.write = "[x: A(\"a\\\"\\\\\", ..., $y) where x.text == \") | \" and not y, " ++
      "!(A | >> _ | /a|\\w+/)] where x in [1, \"b\"]" ∧
    (∀ value, nested ≠ .single (.text value)) ∧
    ∃ given, Given.ofSexp? nested.form = some given ∧
      SameOutcome (compileGiven grammar (.text (String.ofList nested.write))) (compileGiven grammar given) := by
  obtain ⟨grammar, hb⟩ := Grammar.exists_build_loop
  exact ⟨grammar, hb, by decide +kernel, nofun, compile_agrees grammar nested nofun⟩

private theorem readShape_of_meaning {pattern : Whole} {shape : Shape} (h : pattern.meaning = .ok shape) :
    ∃ shape', readShape (String.ofList pattern.write) = .ok shape' ∧ shape'.bare = shape := by
  rw [pattern.meaning_eq_readShape] at h
  cases hr : readShape (String.ofList pattern.write) with
  | error stop =>
    rw [hr] at h
    cases h
  | ok shape' =>
    rw [hr] at h
    exact ⟨shape', rfl, Except.ok.inj h⟩

/-- The form of a text alone is taken for the text of a pattern, here for a kind. -/
theorem lone_text_taken_for_source : ∃ grammar, Grammar.build Grammar.loop = .ok grammar ∧
    Given.ofSexp? (Whole.single (.text "A")).form = some (.text "A") ∧
    ¬ SameOutcome (compileGiven grammar (.text (String.ofList (Whole.single (.text "A")).write)))
      (compileGiven grammar (.text "A")) := by
  obtain ⟨grammar, hb⟩ := Grammar.exists_build_loop
  refine ⟨grammar, hb, rfl, fun hs => ?_⟩
  obtain ⟨shape, hsh, hbr⟩ := @readShape_of_meaning (.single (.text "A")) _ rfl
  obtain ⟨kind, hk, hb'⟩ := @readShape_of_meaning (.single (.kind loopKind)) _ rfl
  cases shape <;> cases hbr
  cases kind <;> cases hb'
  have hw : String.ofList (Whole.single (.kind loopKind)).write = "A" := String.ofList_toList
  rw [hw] at hk
  have hc : compileGiven grammar (.text "A") = compileShape grammar "A" (.kind "A") := by
    rw [compileGiven, compile, hk]
    rfl
  have hch : checkTop grammar (.kind "A") = check grammar [] [] false 0 (.kind "A") := rfl
  rw [compileGiven_text hsh rfl, hc, compileShape, hch, check] at hs
  cases hid : grammar.kindId? "A" with
  | none =>
    rw [hid] at hs
    cases hs
  | some kindId =>
    rw [hid] at hs
    cases hs with
    | compiled ha => cases ha.root_eq

end Pattern

end TreeLint
