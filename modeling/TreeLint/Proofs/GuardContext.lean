import TreeLint.Proofs.SteadyReading

/-!
# Predicates in a larger text

A predicate is read from a larger text as it is read by itself, if after it, and after blanks, there is nothing or a
closing bracket, a comma or a bar.

* `outcome`: what was read, or the code of what is wrong with it, without the place;
* `steady_disjunctionOf`: the readers of predicates are steady;
* `disjunction_amid`: a whole predicate at the front of a larger text.
-/

namespace TreeLint

open List

namespace Predicate

open Reading

variable {core more text : List Char} {size i count : Nat} {α β : Type} {p : Char → Bool} {c : Char}
  {word : String}

/-! ## Tokens -/

/-- No token goes on with a character that may follow. -/
theorem inert_of_mem_edges {c : Char} (h : c ∈ edges) :
    startsName c = false ∧ inName c = false ∧ isWordPart c.toNat = false ∧ isDigit c = false := by
  have ha : edges.all fun c => !startsName c && !inName c && !isWordPart c.toNat && !isDigit c := by
    decide +kernel
  have hc := all_eq_true.1 ha c h
  simp only [Bool.and_eq_true, Bool.not_eq_true', and_assoc] at hc
  exact hc

private theorem takeWhile_append (hp : ∀ c ∈ edges, p c = false) (he : Ends core more) :
    (text ++ more).takeWhile p = text.takeWhile p := by
  induction text with
  | nil =>
    cases more with
    | nil => rfl
    | cons c more => rw [nil_append, takeWhile_cons, hp c (he.mem_edges rfl)]; rfl
  | cons c text ih => rw [cons_append, takeWhile_cons, takeWhile_cons, ih]

private theorem head?_append_iff (hc : c ∉ edges) (he : Ends core more) :
    (text ++ more).head? = some c ↔ text.head? = some c := by
  cases text with
  | nil => exact ⟨fun h => absurd (he.mem_edges h) hc, fun h => by cases h⟩
  | cons first text => exact Iff.rfl

private theorem wordLength?_append (hw : word.toList.all isInner) (he : Ends core more) :
    wordLength? word (text ++ more) = wordLength? word text := by
  unfold wordLength?
  rw [isPrefixOf_append hw he]
  by_cases hs : word.toList.isPrefixOf text
  · have hl : word.length ≤ text.length := by
      rw [← String.length_toList]
      exact (plainTo_of_isPrefixOf hw hs).1
    have he' : endsWord (text ++ more) word.length = endsWord text word.length := by
      unfold endsWord
      rcases Nat.lt_or_eq_of_le hl with hlt | heq
      · rw [getElem?_append_left hlt]
      · rw [heq, getElem?_append_right (Nat.le_refl _), Nat.sub_self, getElem?_eq_none (Nat.le_refl _)]
        cases more with
        | nil => rfl
        | cons c more =>
          have hi := (inert_of_mem_edges (he.mem_edges (c := c) rfl)).2.2.1
          simp [hi]
    rw [he']
  · simp [hs]

private theorem plainTo_of_wordLength? (hw : word.toList.all isInner)
    (h : wordLength? word text = some count) : count = word.length ∧ PlainTo text count := by
  unfold wordLength? at h
  split at h
  next hc =>
    obtain rfl := Option.some.inj h
    rw [← String.length_toList]
    exact ⟨rfl, plainTo_of_isPrefixOf hw (Bool.and_eq_true_iff.1 hc).1⟩
  next => cases h

private theorem steady_keyword (hw : word.toList.all isInner) :
    Steady size word.length i i id (keyword word) (keyword word) := by
  refine Steady.rule ((steady_takeFirst_plain (fun text count hc => ?_) fun core text more he => ?_).map fun _ => ())
  · obtain ⟨rfl, hp⟩ := plainTo_of_wordLength? hw hc
    exact ⟨hp, Nat.le_refl _⟩
  · exact wordLength?_append hw he

private theorem plainTo_of_nameLength? (h : nameLength? text = some count) : PlainTo text count ∧ 1 ≤ count := by
  cases text with
  | nil => cases h
  | cons c text =>
    rw [nameLength?] at h
    split at h
    next hs =>
      obtain rfl := Option.some.inj h
      rw [Nat.add_comm]
      exact ⟨(plainTo_head (isPlain_of (by decide) hs) rfl).add (plainTo_takeWhile (by decide) text),
        Nat.le_add_right _ _⟩
    next => cases h

private theorem nameLength?_append (he : Ends core more) : nameLength? (text ++ more) = nameLength? text := by
  cases text with
  | nil =>
    cases more with
    | nil => rfl
    | cons c more => simp [nameLength?, (inert_of_mem_edges (he.mem_edges (c := c) rfl)).1]
  | cons c text =>
    rw [cons_append, nameLength?, nameLength?, takeWhile_append (fun c hc => (inert_of_mem_edges hc).2.1) he]

private theorem steady_name : Steady size 1 i i id name name :=
  Steady.rule ((steady_takeFirst_plain (fun _ _ => plainTo_of_nameLength?) fun _ _ _ => nameLength?_append).map _)

private theorem notInLength?_not (text : List Char) : notInLength? ("not".toList ++ text) =
    if (text.takeWhile isSpace).isEmpty then none
    else (wordLength? "in" (text.dropWhile isSpace)).map (· + (3 + (text.takeWhile isSpace).length)) := by
  have hs : "not".toList.isPrefixOf ("not".toList ++ text) := by simp
  have hd : ("not".toList ++ text).drop 3 = text := rfl
  unfold notInLength?
  dsimp only
  rw [if_pos hs, ← drop_drop, hd, drop_length_takeWhile]
  cases text.takeWhile isSpace <;> rfl

theorem notInLength?_eq_none (h : ¬ "not".toList.isPrefixOf text) : notInLength? text = none := by
  rw [notInLength?, if_neg h]

private theorem steady_notIn : Steady size 1 i i id (takeFirst notInLength?) (takeFirst notInLength?) := by
  have hn : "not".toList.all isInner := by decide
  have hin : "in".toList.all isInner := by decide
  refine steady_takeFirst_plain (fun text count hc => ?_) fun core text more he => ?_
  · by_cases hs : "not".toList.isPrefixOf text
    · obtain ⟨rest, rfl⟩ := isPrefixOf_iff_prefix.1 hs
      rw [notInLength?_not] at hc
      split at hc
      next => cases hc
      next =>
        obtain ⟨length, hl, rfl⟩ := Option.map_eq_some_iff.1 hc
        rw [← drop_length_takeWhile] at hl
        have hf : PlainTo ("not".toList ++ rest) 3 := ⟨by simp, by simp; decide⟩
        have hg : PlainTo (("not".toList ++ rest).drop 3) (rest.takeWhile isSpace).length :=
          plainTo_takeWhile (by decide) rest
        have hls : PlainTo (("not".toList ++ rest).drop (3 + (rest.takeWhile isSpace).length)) length := by
          rw [← drop_drop]
          exact (plainTo_of_wordLength? hin hl).2
        rw [Nat.add_comm length]
        exact ⟨(hf.add hg).add hls, by omega⟩
    · rw [notInLength?_eq_none hs] at hc
      cases hc
  · have hs' : "not".toList.isPrefixOf (text ++ more) = "not".toList.isPrefixOf text :=
      isPrefixOf_append hn he
    by_cases hs : "not".toList.isPrefixOf text
    · obtain ⟨rest, rfl⟩ := isPrefixOf_iff_prefix.1 hs
      rw [append_assoc, notInLength?_not, notInLength?_not]
      cases hr : rest.dropWhile isSpace with
      | nil =>
        -- the blanks reach the end, and what follows them is no word
        have hw : wordLength? "in" core = none := by
          rw [← nil_append core, wordLength?_append hin he.again]
          rfl
        rw [List.dropWhile_append, hr, isEmpty_nil, if_pos rfl, he.core_eq, hw]
        simp [wordLength?]
      | cons c others =>
        have ht : (rest ++ more).takeWhile isSpace = rest.takeWhile isSpace := by
          rw [List.takeWhile_append, if_neg]
          intro hl
          have := congrArg List.length (takeWhile_append_dropWhile (p := isSpace) (l := rest))
          rw [length_append, hl, hr, length_cons] at this
          omega
        have hd : (rest ++ more).dropWhile isSpace = c :: others ++ more := by
          rw [List.dropWhile_append, hr]
          rfl
        rw [ht, hd, wordLength?_append hin he]
    · rw [notInLength?_eq_none hs, notInLength?_eq_none (by rwa [hs'])]

private theorem steady_stringLiteral : Steady size 1 i i id stringLiteral stringLiteral := by
  refine Steady.rule ((steady_takeFirst (fun text count hc => ?_) fun core text more depth hcl he => ?_).map _)
  · cases text with
    | nil => cases hc
    | cons quote text =>
      rw [stringLength?] at hc
      split at hc
      next hq =>
        obtain ⟨length, hl, rfl⟩ := Option.map_eq_some_iff.1 hc
        obtain ⟨-, hle, hcl⟩ := quotedLength?_append hl []
        refine ⟨by simpa using hle, Nat.le_add_left _ _, fun depth => ?_⟩
        rw [drop_succ_cons, ← hcl]
        simp [closes, hq]
      next => cases hc
  · cases text with
    | nil =>
      cases more with
      | nil => rfl
      | cons c more =>
        have ha : edges.all fun c => !(c == '"' || c == '\'') := by decide
        have hq := all_eq_true.1 ha c (he.mem_edges rfl)
        rw [Bool.not_eq_true'] at hq
        rw [nil_append, stringLength?, hq]
        rfl
    | cons quote text =>
      rw [cons_append, stringLength?, stringLength?]
      split
      next hq =>
        rw [closes, if_pos hq] at hcl
        cases hl : quotedLength? quote text with
        | none =>
          rw [not_closes_of_quotedLength? hl] at hcl
          cases hcl
        | some length => rw [(quotedLength?_append hl more).1]
      next => rfl

private theorem plainTo_of_numberLength? (h : numberLength? text = some count) : PlainTo text count ∧ 1 ≤ count := by
  have hd (text : List Char) : PlainTo text (text.takeWhile isDigit).length :=
    plainTo_takeWhile (by decide) text
  have hs : PlainTo text (if text.head? == some '-' then 1 else 0) := by
    split
    next hh => exact plainTo_head (by decide) (eq_of_beq hh)
    next => exact ⟨Nat.zero_le _, by simp⟩
  unfold numberLength? at h
  dsimp only at h
  generalize (if text.head? == some '-' then 1 else 0) = sign at h hs
  have hw := hs.add (hd (text.drop sign))
  split at h
  next => cases h
  next hz =>
    have hpo : (List.takeWhile isDigit (text.drop sign)).length ≠ 0 := by simpa using hz
    generalize (List.takeWhile isDigit (text.drop sign)).length = whole at h hw hpo
    split at h
    next hp =>
      obtain rfl := Option.some.inj h
      rw [Bool.and_eq_true, beq_iff_eq] at hp
      have hdt := hw.add (plainTo_head (by decide) hp.1)
      rw [drop_drop]
      exact ⟨hdt.add (hd (text.drop (sign + whole + 1))), by omega⟩
    next =>
      obtain rfl := Option.some.inj h
      exact ⟨hw, by omega⟩

private theorem numberLength?_append (he : Ends core more) : numberLength? (text ++ more) = numberLength? text := by
  have hd : ∀ c ∈ edges, isDigit c = false := fun c hc => (inert_of_mem_edges hc).2.2.2
  have hm : '-' ∉ edges ∧ '.' ∉ edges := by decide
  have hs : ((text ++ more).head? == some '-') = (text.head? == some '-') := by
    rw [Bool.eq_iff_iff, beq_iff_eq, beq_iff_eq, head?_append_iff hm.1 he]
  have hle : (if text.head? == some '-' then 1 else 0) ≤ text.length := by
    cases text with
    | nil => simp
    | cons c text => split <;> simp
  unfold numberLength?
  dsimp only
  rw [hs]
  generalize (if text.head? == some '-' then 1 else 0) = sign at hle
  rw [drop_append_of_le_length hle, takeWhile_append hd he]
  have hle' : sign + (List.takeWhile isDigit (text.drop sign)).length ≤ text.length := by
    have := (takeWhile_sublist isDigit (l := text.drop sign)).length_le
    rw [length_drop] at this
    omega
  generalize (List.takeWhile isDigit (text.drop sign)).length = whole at hle'
  rw [drop_append_of_le_length hle']
  cases ha : text.drop (sign + whole) with
  | nil =>
    have hp : (more.head? == some '.') = false := by
      simpa using fun hh : more.head? = some '.' => hm.2 (he.mem_edges hh)
    simp [hp]
  | cons c after => rw [cons_append, drop_succ_cons, drop_zero, takeWhile_append hd he]; rfl

private theorem steady_number : Steady size 1 i i id number number :=
  Steady.rule ((steady_takeFirst_plain (fun _ _ => plainTo_of_numberLength?) fun _ _ _ => numberLength?_append).map _)

private theorem steady_boolean : Steady size 1 i i id boolean boolean := by
  have ht : "true".toList.all isInner := by decide
  have hf : "false".toList.all isInner := by decide
  refine Steady.rule ((steady_takeFirst_plain (fun text count hc => ?_) fun core text more he => ?_).map _)
  · rw [Option.orElse_eq_orElse, Option.orElse_eq_or] at hc
    rcases Option.or_eq_some_iff.1 hc with hc | ⟨-, hc⟩
    · obtain ⟨rfl, hp⟩ := plainTo_of_wordLength? ht hc
      exact ⟨hp, by decide⟩
    · obtain ⟨rfl, hp⟩ := plainTo_of_wordLength? hf hc
      exact ⟨hp, by decide⟩
  · rw [wordLength?_append ht he, wordLength?_append hf he]

private theorem steady_captureName : Steady size 1 i i id (takeFirst captureLength?) (takeFirst captureLength?) := by
  have hd : ∀ text : List Char, text.head? ≠ some '$' → captureLength? text = nameLength? text := by
    intro text hh
    rw [captureLength?.eq_def]
    split
    next => exact absurd rfl hh
    next => rfl
  refine steady_takeFirst_plain (fun text count hc => ?_) fun core text more he => ?_
  · by_cases hh : text.head? = some '$'
    · obtain ⟨rest, rfl⟩ := head?_eq_some_iff.1 hh
      obtain ⟨length, hl, rfl⟩ := Option.map_eq_some_iff.1 hc
      rw [Nat.add_comm length]
      exact ⟨(plainTo_head (by decide) hh).add (plainTo_of_nameLength? hl).1, by omega⟩
    · rw [hd text hh] at hc
      exact plainTo_of_nameLength? hc
  · by_cases hh : text.head? = some '$'
    · obtain ⟨rest, rfl⟩ := head?_eq_some_iff.1 hh
      rw [cons_append, captureLength?, captureLength?, nameLength?_append he]
    · have hh' : (text ++ more).head? ≠ some '$' := by
        rwa [Ne, head?_append_iff (by decide) he]
      rw [hd text hh, hd _ hh', nameLength?_append he]

/-! ## What was read, without its place -/

def outcome (checked : Checked α) : Except (Stop Code) α :=
  checked.mapError (Stop.map fun fault => fault.failure.code)

private theorem outcome_map (f : α → β) (checked : Checked α) : outcome (checked.map f) = (outcome checked).map f := by
  cases checked <;> rfl

private theorem outcome_bind (checked : Checked α) (next : α → Checked β) :
    outcome (checked >>= next) = outcome checked >>= fun value => outcome (next value) := by
  cases checked <;> rfl

private theorem outcome_checkAll {first second : List (Checked α)} (h : first.map outcome = second.map outcome) :
    outcome (checkAll first) = outcome (checkAll second) := by
  induction first generalizing second with
  | nil =>
    obtain rfl := map_eq_nil_iff.1 h.symm
    rfl
  | cons value first ih =>
    obtain ⟨value', second, rfl, hv, hvl⟩ := map_eq_cons_iff.1 h.symm
    rw [checkAll, checkAll, outcome_bind, outcome_bind, hv]
    simp only [outcome_bind, ih hvl.symm]

/-! ## Expressions -/

variable {nested nested' : Reading (Checked Expr)}

private theorem steady_comparisonSign : Steady size 1 i i id comparisonSign comparisonSign := by
  refine Steady.rule (steady_firstOf fun reader hr => ?_)
  simp only [mem_append, mem_map, mem_singleton] at hr
  rcases hr with (⟨sign, hs, rfl⟩ | rfl) | ⟨word, hw, rfl⟩
  · have hm : ∀ sign ∈ signComparisons, sign.mark.toList.all isInner ∧ 1 ≤ sign.mark.length := by decide
    obtain ⟨hi, hl⟩ := hm sign hs
    exact ((steady_literal hi).bind fun _ _ _ _ => steady_pure rfl).mono (Nat.le_refl _) hl
  · exact (steady_notIn.bind fun _ _ _ _ => steady_pure rfl).rule
  · have hm : ∀ word ∈ wordComparisons, word.mark.toList.all isInner ∧ 1 ≤ word.mark.length := by decide
    obtain ⟨hi, hl⟩ := hm word hw
    exact ((steady_keyword hi).bind fun _ _ _ _ => steady_pure rfl).mono (Nat.le_refl _) hl

private theorem steady_items (h : Steady size 1 0 0 outcome nested nested') :
    Steady size 1 1 1 outcome (items nested) (items nested') := by
  change Steady size (1 + 0) 1 1 outcome _ _
  have hc : Steady size (0 + 1) 1 1 id (do blanks; literal ","; blanks) (do blanks; literal ","; blanks) :=
    steady_blanks.bind fun _ _ _ _ => steady_comma.bind fun _ _ _ _ => steady_blanks
  exact Steady.rule ((h.inside.separated hc).bind fun _ exprs exprs' he =>
    steady_pure (outcome_checkAll he))

private theorem steady_optionalItems (h : Steady size 1 0 0 outcome nested nested') :
    Steady size 0 1 1 outcome (optionalItems nested) (optionalItems nested') := by
  change Steady size (0 + 0) 1 1 outcome _ _
  refine (steady_items h).optional.bind fun _ exprs exprs' he => ?_
  cases exprs with
  | none =>
    cases exprs' with
    | none => exact steady_pure rfl
    | some _ => cases he
  | some _ =>
    cases exprs' with
    | none => cases he
    | some _ => exact steady_pure (Option.some.inj he)

private theorem steady_group (h : 1 ≤ size → Steady (size - 1) 1 0 0 outcome nested nested') :
    Steady size 1 0 0 outcome (group nested) (group nested') := by
  suffices ha : Steady size (1 + (0 + (1 + (0 + (1 + 0))))) 0 0 outcome (group nested) (group nested') from
    ha.mono (Nat.le_refl _) (by decide)
  refine Steady.rule ((steady_open (c := '(') rfl (by decide)).bind fun hs _ _ _ => ?_)
  refine steady_blanks.bind fun _ _ _ _ => (h hs).inside.bind fun _ expr expr' he => ?_
  refine steady_blanks.bind fun _ _ _ _ => (steady_close (c := ')') rfl (by decide)).bind fun _ _ _ _ => ?_
  exact steady_pure he

private theorem steady_bracketed (h : 1 ≤ size → Steady (size - 1) 1 0 0 outcome nested nested') :
    Steady size 1 0 0 outcome (bracketed nested) (bracketed nested') := by
  suffices ha : Steady size (1 + (0 + (0 + (0 + (1 + 0))))) 0 0 outcome (bracketed nested) (bracketed nested') from
    ha.mono (Nat.le_refl _) (by decide)
  refine Steady.rule ((steady_open (c := '[') rfl (by decide)).bind fun hs _ _ _ => ?_)
  refine steady_blanks.bind fun _ _ _ _ => (steady_optionalItems (h hs)).bind fun _ exprs exprs' he => ?_
  refine steady_blanks.bind fun _ _ _ _ => (steady_close (c := ']') rfl (by decide)).bind fun _ _ _ _ => ?_
  exact steady_pure (by rw [outcome_map, outcome_map, he])

private theorem outcome_checkCall (name : String) (arguments : List Expr) (start stop start' stop' : Nat) :
    outcome (checkCall name arguments start stop) = outcome (checkCall name arguments start' stop') := by
  unfold checkCall
  cases Function.ofName? name with
  | none => rfl
  | some function => dsimp only; split <;> rfl

private theorem steady_call (h : 1 ≤ size → Steady (size - 1) 1 0 0 outcome nested nested') :
    Steady size 1 0 0 outcome (call nested) (call nested') := by
  suffices ha : Steady size (0 + (1 + (0 + (1 + (0 + (0 + (0 + (1 + (0 + 0))))))))) 0 0 outcome (call nested)
      (call nested') from ha.mono (Nat.le_refl _) (by decide)
  refine Steady.rule (steady_here.bind fun _ start start' _ => steady_name.bind fun hs name name' hn => ?_)
  obtain rfl : name = name' := hn
  refine steady_blanks.bind fun _ _ _ _ => (steady_open (c := '(') rfl (by decide)).bind fun _ _ _ _ => ?_
  have hi := steady_optionalItems ((h hs).mono (Nat.sub_le (size - 1) 1) (Nat.le_refl 1))
  refine steady_blanks.bind fun _ _ _ _ => hi.bind fun _ exprs exprs' he => ?_
  refine steady_blanks.bind fun _ _ _ _ => (steady_close (c := ')') rfl (by decide)).bind fun _ _ _ _ => ?_
  refine steady_here.bind fun _ stop stop' _ => steady_pure ?_
  rw [outcome_bind, outcome_bind, he]
  simp only [outcome_checkCall name _ start stop start' stop']

private theorem steady_aspect : Steady size 1 i i id aspect aspect := by
  suffices ha : Steady size (".".length + 1) i i id aspect aspect from ha.mono (Nat.le_refl _) (by decide)
  exact Steady.rule ((steady_literal (by decide)).bind fun _ _ _ _ => steady_name)

private theorem outcome_checkCapture (name : String) (aspect : Option String) (start stop start' stop' : Nat) :
    outcome (checkCapture name aspect start stop) = outcome (checkCapture name aspect start' stop') := by
  unfold checkCapture
  cases aspect with
  | none => rfl
  | some aspect => dsimp only; split <;> rfl

private theorem steady_capture : Steady size 1 i i outcome capture capture := by
  suffices hall : Steady size (0 + (1 + (0 + (0 + 0)))) i i outcome capture capture from
    hall.mono (Nat.le_refl _) (by decide)
  refine Steady.rule (steady_here.bind fun _ start start' _ => steady_captureName.bind fun _ text text' ht => ?_)
  obtain rfl : text = text' := ht
  refine steady_aspect.optional.bind fun _ aspect aspect' ha => steady_here.bind fun _ stop stop' _ => ?_
  obtain rfl : aspect = aspect' := by simpa using ha
  exact steady_pure (outcome_checkCapture _ _ start stop start' stop')

private theorem steady_operand (h : 1 ≤ size → Steady (size - 1) 1 0 0 outcome nested nested') :
    Steady size 1 0 0 outcome (operand nested) (operand nested') := by
  exact Steady.rule <| (steady_group h).either <| (steady_bracketed h).either <| (steady_stringLiteral.map _).either <|
    (steady_number.map _).either <| (steady_boolean.map _).either <| (steady_call h).either <|
      steady_capture.either steady_fail

private theorem steady_comparison (h : 1 ≤ size → Steady (size - 1) 1 0 0 outcome nested nested') :
    Steady size 1 0 0 outcome (comparison nested) (comparison nested') := by
  suffices ha : Steady size (1 + (0 + 0)) 0 0 outcome (comparison nested) (comparison nested') from ha
  have ho {limit : Nat} (hl : limit ≤ size) :
      Steady limit 1 0 0 outcome (operand nested) (operand nested') :=
    (steady_operand h).mono hl (Nat.le_refl _)
  have ht : Steady size (0 + (1 + (0 + (1 + 0)))) 0 0 (fun tail => (tail.1, outcome tail.2)) (do
        blanks
        let sign ← comparisonSign
        blanks
        let right ← operand nested
        return (sign, right))
      (do
        blanks
        let sign ← comparisonSign
        blanks
        let right ← operand nested'
        return (sign, right)) := by
    refine steady_blanks.bind fun _ _ _ _ => steady_comparisonSign.bind fun _ sign sign' hs => ?_
    refine steady_blanks.bind fun _ _ _ _ => (ho (by omega)).bind fun _ right right' hr => steady_pure ?_
    rw [show sign = sign' from hs, hr]
  refine Steady.rule ((ho (Nat.le_refl _)).bind fun _ left left' hlf => ?_)
  refine ((ht.mono (Nat.sub_le size 1) (by omega : 1 + 1 ≤ 0 + (1 + (0 + (1 + 0))))).optional).bind
    fun _ tail tail' ht => ?_
  cases tail with
  | none =>
    cases tail' with
    | none => exact steady_pure hlf
    | some _ => cases ht
  | some tail =>
    cases tail' with
    | none => cases ht
    | some tail' =>
      obtain ⟨hs, hr⟩ := Prod.mk.inj (Option.some.inj ht)
      refine steady_pure ?_
      simp only [outcome_bind, hlf, hr, hs]

private theorem steady_joined (hw : word.toList.all isInner) (hl : 1 ≤ word.length)
    (join : List Expr → Expr) {part part' : Reading (Checked Expr)} (h : Steady size 1 0 0 outcome part part') :
    Steady size 1 0 0 outcome (joined word join part) (joined word join part') := by
  suffices ha : Steady size (1 + 0) 0 0 outcome (joined word join part) (joined word join part') from ha
  have hs : Steady size (0 + (word.length + 0)) 0 0 id (do blanks; keyword word; blanks)
      (do blanks; keyword word; blanks) :=
    steady_blanks.bind fun _ _ _ _ => (steady_keyword hw).bind fun _ _ _ _ => steady_blanks
  have hp := h.separated (hs.mono (Nat.le_refl _) (by omega : 0 + 1 ≤ 0 + (word.length + 0)))
  refine Steady.rule (hp.bind fun _ parts parts' hp => steady_pure ?_)
  rw [outcome_map, outcome_map, outcome_checkAll hp]

theorem steady_disjunctionOf (h : Steady size 1 0 0 outcome nested nested') :
    Steady size 1 0 0 outcome (disjunctionOf nested) (disjunctionOf nested') :=
  steady_joined (by decide) (by decide) _ (steady_joined (by decide) (by decide) _ h)

/-- With enough levels of nesting for a text, it does not matter how many more there are. -/
private theorem steady_negationAt {depth depth' : Nat} (h : size < depth) (h' : size < depth') :
    Steady size 1 0 0 outcome (negationAt depth) (negationAt depth') := by
  induction depth generalizing size depth' with
  | zero => omega
  | succ depth ih =>
    obtain ⟨depth', rfl⟩ := Nat.exists_eq_succ_of_ne_zero (by omega : depth' ≠ 0)
    have hi (hs : 1 ≤ size) : Steady (size - 1) 1 0 0 outcome (negationAt depth) (negationAt depth') :=
      ih (by omega) (by omega)
    refine Steady.rule (Steady.either (Steady.rule ?_) (steady_comparison fun hs => steady_disjunctionOf (hi hs)))
    suffices ha : Steady size ("not".length + (0 + (1 + 0))) 0 0 outcome _ _ from
      ha.mono (Nat.le_refl _) (by decide)
    have hl : 1 ≤ "not".length := by decide
    refine (steady_keyword (by decide)).bind fun hs _ _ _ => steady_blanks.bind fun _ _ _ _ => ?_
    refine ((hi (by omega)).mono (by omega) (Nat.le_refl _)).bind fun _ expr expr' he => steady_pure ?_
    rw [outcome_map, outcome_map, he]

/-! ## Predicates -/

private theorem steady_disjunction (text : List Char) {depth : Nat} (h : text.length < depth) :
    Steady text.length 1 0 0 outcome (disjunctionOf (negationAt (text.length + 1)))
      (disjunctionOf (negationAt depth)) :=
  steady_disjunctionOf (steady_negationAt (Nat.lt_succ_self _) h)

/-- A text that reads well as a predicate holds one after its blanks, with nothing but blanks after that. -/
private theorem found_of_whole {guard : List Char} {checked : Checked Expr}
    (h : predicateText.whole guard = .ok checked) :
    ∃ pos after, (disjunction ⟨guard.dropWhile isSpace, pos⟩).found = some (checked, after) ∧
      after.rest.dropWhile isSpace = [] := by
  obtain ⟨last, hf, hl⟩ := whole_eq_ok_iff.1 h
  rw [predicateText, found_rule, found_bind, found_blanks, Option.bind_some, found_bind] at hf
  obtain ⟨⟨checked', after⟩, hd, ha⟩ := Option.bind_eq_some_iff.1 hf
  rw [found_bind, found_blanks] at ha
  obtain ⟨rfl, rfl⟩ := Prod.mk.inj (Option.some.inj ha)
  exact ⟨_, after, hd, hl⟩

/-- A predicate at the front of a larger text is read as it is read by itself. -/
theorem disjunction_amid {guard : List Char} {checked : Checked Expr} (h : predicateText.whole guard = .ok checked)
    (he : Ends core more) (pos : Nat) :
    ∃ checked' after, (disjunction ⟨(guard ++ more).dropWhile isSpace, pos⟩).found = some (checked', after) ∧
      after.rest.dropWhile isSpace = core ∧ outcome checked' = outcome checked := by
  obtain ⟨start, ⟨rest, stop⟩, hf, hr⟩ := found_of_whole h
  have ht : (guard ++ more).dropWhile isSpace =
      if (guard.dropWhile isSpace).isEmpty then more.dropWhile isSpace else guard.dropWhile isSpace ++ more :=
    List.dropWhile_append
  generalize guard.dropWhile isSpace = text at hf ht
  have hs := steady_disjunction text (by rw [length_append]; omega : text.length < (text ++ more).length + 1)
  obtain ⟨hl, hc⟩ := hs.takes (Nat.le_refl _) hf
  rw [if_neg (by cases text <;> simp_all)] at ht
  -- the predicate has closed its brackets where only blanks are left
  have hcl : closes .outside (0 + 0) text := by
    have hb : closes .outside (0 + 0) rest = closes .outside (0 + 0) (rest.dropWhile isSpace) :=
      (steady_blanks.takes (Nat.le_refl _) (found_blanks rest 0)).2 0
    rw [hc, hb, hr]
    rfl
  rcases (@hs.agrees _ text more start pos 0 (Nat.le_refl _) hcl he).eq_none_or with
    ⟨hn, -⟩ | ⟨value, value', rest', more', _, _, hv, he', hso, hs'⟩
  · cases hn.symm.trans hf
  · cases hso.symm.trans hf
    refine ⟨value', _, by rw [ht]; exact hs', ?_, hv.symm⟩
    rw [List.dropWhile_append, hr, isEmpty_nil, if_pos rfl, he'.core_eq]

end Predicate

end TreeLint
