import TreeLint.Proofs.GuardContext
import TreeLint.Proofs.PatternTerms
import TreeLint.Proofs.ReaderRules

/-!
# Reading the words of patterns

A pattern that is a single word of the notation is read as what it means, whatever follows it that is no part of it.

* `Pattern.Apart`: what may follow such a pattern;
* `Pattern.ReadsAs`: a reader reads a text as a term and stops at what follows;
* `Pattern.readsAs_wildcard`, `Pattern.readsAs_ellipsis`, `Pattern.readsAs_metavar`, `Pattern.readsAs_text`,
  `Pattern.readsAs_regex`, `Pattern.readsAs_kind`: the patterns of one word.
-/

namespace TreeLint

open List

namespace Pattern

open Reading
open Predicate (isSpace blanks keyword startsName inName nameLength? name stringLength? quotedLength? unescape)

variable {text rest : List Char}

/-! ## What may follow -/

/-- A text that may follow a pattern: it does not go on with a name, and it does not open a list of children or turn the
pattern into the name of a capture. -/
structure Apart (rest : List Char) : Prop where
  parted : ∀ c ∈ rest.head?, inKindName c = false
  plain : ∀ c ∈ (rest.dropWhile isSpace).head?, c ≠ '(' ∧ c ≠ ':'

/-! ## Names -/

theorem takeWhile_all_append {p : Char → Bool} (ht : text.all p) (hr : ∀ c ∈ rest.head?, p c = false) :
    (text ++ rest).takeWhile p = text := by
  rw [takeWhile_append_of_pos (by simpa using ht)]
  cases rest with
  | nil => simp
  | cons c rest => simp [hr c rfl]

theorem CaptureName.nameLength? (bound : CaptureName) (hr : ∀ c ∈ rest.head?, inName c = false) :
    Predicate.nameLength? (bound.text.toList ++ rest) = some bound.text.toList.length := by
  obtain ⟨c, more, hw, hc⟩ := Term.exists_eq_cons bound.starts
  have hi := bound.inside
  rw [hw, all_cons, Bool.and_eq_true] at hi
  rw [hw, cons_append, Predicate.nameLength?, if_pos hc, takeWhile_all_append hi.2 hr, length_cons]

private theorem KindName.kindNameLength? (kind : KindName) (hr : ∀ c ∈ rest.head?, inKindName c = false) :
    Pattern.kindNameLength? (kind.text.toList ++ rest) = some kind.text.toList.length := by
  obtain ⟨c, more, hw, hc⟩ := Term.exists_eq_cons kind.starts
  have hi := kind.inside
  rw [hw, all_cons, Bool.and_eq_true] at hi
  rw [hw, cons_append, Pattern.kindNameLength?, if_pos hc, takeWhile_all_append hi.2 hr, length_cons]

theorem CaptureName.yields (bound : CaptureName) (hr : ∀ c ∈ rest.head?, inName c = false) :
    Yields name (bound.text.toList ++ rest) fun value after => value = bound.text ∧ after = rest := by
  refine Yields.rule (Yields.bind (yields_takeFirst (bound.nameLength? hr) (yields_pure ?_)))
  rw [take_left, drop_left, String.ofList_toList]
  exact ⟨rfl, rfl⟩

theorem KindName.yields (kind : KindName) (hr : ∀ c ∈ rest.head?, inKindName c = false) :
    Yields kindName (kind.text.toList ++ rest) fun value after => value = kind.text ∧ after = rest := by
  refine Yields.rule (Yields.bind (yields_takeFirst (kind.kindNameLength? hr) (yields_pure ?_)))
  rw [take_left, drop_left, String.ofList_toList]
  exact ⟨rfl, rfl⟩

theorem wordLength?_self_append (word : String) (hr : ∀ c ∈ rest.head?, isWordPart c.toNat = false) :
    Predicate.wordLength? word (word.toList ++ rest) = some word.toList.length := by
  have he : Predicate.endsWord (word.toList ++ rest) word.toList.length := by
    rw [Predicate.endsWord, getElem?_append_right (Nat.le_refl _), Nat.sub_self]
    cases rest with
    | nil => rfl
    | cons c rest => simp [hr c rfl]
  rw [Predicate.wordLength?, ← String.length_toList, he]
  simp

/-! ## Texts and expressions -/

private theorem quotedLength?_escape (value rest : List Char) :
    quotedLength? '"' (Sexp.escape value ++ '"' :: rest) = some ((Sexp.escape value).length + 1) := by
  induction value with
  | nil =>
    rw [Sexp.escape, nil_append]
    unfold quotedLength?
    rfl
  | cons c value ih =>
    rw [Sexp.escape]
    split
    next h =>
      have hc : (c == '\n') = false := by
        rcases Bool.or_eq_true_iff.1 h with h | h <;> rw [eq_of_beq h] <;> decide
      rw [cons_append, cons_append]
      unfold quotedLength?
      simp [hc, ih]
    next h =>
      rw [Bool.or_eq_true_iff, not_or] at h
      rw [cons_append]
      unfold quotedLength?
      simp [h.1, h.2, ih]

private theorem unescape_escape (value : List Char) : unescape (Sexp.escape value) = value := by
  induction value with
  | nil => rfl
  | cons c value ih =>
    rw [Sexp.escape]
    split
    next h =>
      rcases Bool.or_eq_true_iff.1 h with h | h
      · rw [eq_of_beq h, unescape, ih]
        rfl
      · rw [eq_of_beq h, unescape, ih]
        rfl
    next h =>
      rw [Bool.or_eq_true_iff, not_or] at h
      rw [unescape, ih]
      intro _ _ hc
      simp [hc] at h

theorem yields_stringLiteral (value : String) {post : String → List Char → Prop} (h : post value rest) :
    Yields Predicate.stringLiteral ('"' :: (Sexp.escape value.toList ++ ['"']) ++ rest) post := by
  have hl : stringLength? ('"' :: (Sexp.escape value.toList ++ ['"']) ++ rest) =
      some ('"' :: (Sexp.escape value.toList ++ ['"'])).length := by
    rw [cons_append, append_assoc, singleton_append, stringLength?, quotedLength?_escape]
    simp
  refine Yields.rule (Yields.bind (yields_takeFirst hl (yields_pure ?_)))
  rwa [take_left, drop_left, drop_succ_cons, drop_zero, dropLast_concat, unescape_escape, String.ofList_toList]

private theorem slashedLength?_append {src : List Char} (hs : '/' ∉ src) (hb : '\n' ∉ src)
    (hcl : closesEscapes src) (rest : List Char) :
    slashedLength? (src ++ '/' :: rest) = some (src.length + 1) := by
  fun_induction closesEscapes src with
  | case1 => cases hcl
  | case2 c src ih =>
    simp only [mem_cons, not_or] at hs hb
    rw [cons_append, cons_append, slashedLength?.eq_def]
    simp [Ne.symm hb.2.1, ih hs.2.2 hb.2.2 hcl]
  | case3 c src hl he ih =>
    simp only [mem_cons, not_or] at hs hb
    have hc : c ≠ '\\' := by
      rintro rfl
      cases src with
      | nil => exact hl rfl rfl
      | cons escaped src => exact he escaped src rfl rfl
    rw [cons_append, slashedLength?.eq_def]
    simp [Ne.symm hs.1, Ne.symm hb.1, hc, ih hs.2 hb.2 hcl]
  | case4 =>
    rw [nil_append, slashedLength?.eq_def]
    rfl

private theorem unescapeSlashes_of_not_mem {src : List Char} (h : '/' ∉ src) : unescapeSlashes src = src := by
  fun_induction unescapeSlashes src with
  | case1 rest ih => simp at h
  | case2 c rest hs ih => rw [ih (fun hm => h (mem_cons_of_mem _ hm))]
  | case3 => rfl

/-! ## Readers that fail -/

theorem refuses_name (h : ∀ c ∈ text.head?, startsName c = false) : Refuses name text := by
  refine Refuses.rule (Refuses.bind (refuses_takeFirst ?_))
  cases text with
  | nil => rfl
  | cons c text => simp [Predicate.nameLength?, h c rfl]

theorem refuses_kindName (h : ∀ c ∈ text.head?, startsName c = false) : Refuses kindName text := by
  refine Refuses.rule (Refuses.bind (refuses_takeFirst ?_))
  cases text with
  | nil => rfl
  | cons c text => simp [Pattern.kindNameLength?, h c rfl]

theorem refuses_wildcard (h : text.head? ≠ some '_') : Refuses (takeFirst wildcardLength?) text := by
  refine refuses_takeFirst ?_
  unfold wildcardLength?
  split
  · simp at h
  · rfl

theorem refuses_metavar (h : text.head? ≠ some '$') : Refuses (takeFirst metavarLength?) text := by
  refine refuses_takeFirst ?_
  unfold metavarLength?
  split
  · simp at h
  · rfl

theorem refuses_regex (h : text.head? ≠ some '/') : Refuses (takeFirst regexLength?) text := by
  refine refuses_takeFirst ?_
  unfold regexLength?
  split
  · simp at h
  · rfl

theorem refuses_stringLiteral (hd : text.head? ≠ some '"') (hs : text.head? ≠ some '\'') :
    Refuses Predicate.stringLiteral text := by
  refine Refuses.rule (Refuses.bind (refuses_takeFirst ?_))
  cases text with
  | nil => rfl
  | cons c text =>
    have hq : (c == '"' || c == '\'') = false := by
      simp only [head?_cons, ne_eq, Option.some.injEq] at hd hs
      simp [hd, hs]
    simp [stringLength?, hq]

/-! ## Patterns without an operator in front -/

/-- A shape that was read, without the texts of its guards, or the code of what is wrong with it. -/
def seen (checked : Predicate.Checked Shape) : Except (Stop Code) Shape :=
  seenAs Shape.bare (fun fault : Predicate.Fault => fault.failure.code) checked

def ReadsAs (reader : Reading (Predicate.Checked Shape)) (text rest : List Char) (term : Term) : Prop :=
  Yields reader (text ++ rest) fun checked after => seen checked = term.meaning ∧ Same after rest

variable {depth : Nat} {nested : Reading (Predicate.Checked Shape)} {post : Predicate.Checked Shape → List Char → Prop}

theorem refuses_group (h : text.head? ≠ some '(') : Refuses (group nested) text :=
  (refuses_literal_of_head rfl h).bind.rule

private theorem refuses_childList (h : (text.dropWhile isSpace).head? ≠ some '(') : Refuses (childList nested) text :=
  Refuses.rule (Yields.refuses (yields_blanks (refuses_literal_of_head rfl h).bind))

theorem yields_unaryAt (hb : text.head? ≠ some '!') (ha : text.head? ≠ some '>')
    (hn : Refuses name text ∨ Yields name text fun _ after => (after.dropWhile isSpace).head? ≠ some ':')
    (h : Yields (primary (alternationOf (unaryAt depth))) text post) : Yields (unaryAt (depth + 1)) text post := by
  refine Yields.rule (Refuses.either (refuses_literal_of_head rfl hb).bind.rule ?_)
  refine Refuses.either (refuses_literal_of_head rfl ha).bind.rule ?_
  refine Refuses.either (Refuses.rule ?_) (Yields.either h)
  rcases hn with hn | hn
  · exact hn.bind
  · refine Yields.refuses (hn.imp fun _ after haf => ?_)
    exact Yields.refuses (yields_blanks (refuses_literal_of_head rfl haf).bind)

/-- A name that is not followed by a colon does not name a capture. -/
private theorem yields_name_alone {c : Char} {more : List Char} (hc : startsName c) (hm : more.all inKindName)
    (hr : ∀ c ∈ rest.head?, inKindName c = false) (hcl : (rest.dropWhile isSpace).head? ≠ some ':') :
    Yields name (c :: (more ++ rest)) fun _ after => (after.dropWhile isSpace).head? ≠ some ':' := by
  have hl : nameLength? (c :: (more ++ rest)) = some (((more ++ rest).takeWhile inName).length + 1) := by
    rw [nameLength?, if_pos hc]
  refine Yields.rule (Yields.bind (yields_takeFirst hl (yields_pure ?_)))
  rw [drop_succ_cons, drop_length_takeWhile, List.dropWhile_append]
  split
  · have hn : rest.dropWhile inName = rest := by
      cases rest with
      | nil => rfl
      | cons first rest =>
        have hf := hr first rfl
        rw [inKindName, Bool.or_eq_false_iff] at hf
        exact dropWhile_cons_of_neg (by simp [hf.1])
    rwa [hn]
  next he =>
    -- what is left of the word starts with a dash
    cases hlf : more.dropWhile inName with
    | nil => simp [hlf] at he
    | cons d left =>
      have hd : inKindName d := all_eq_true.1 hm d ((dropWhile_sublist inName).mem (by rw [hlf]; exact mem_cons_self))
      have hd' : inName d = false := by
        have hnt := head?_dropWhile_not inName more
        rw [hlf] at hnt
        simpa using hnt
      rw [inKindName, hd', Bool.false_or, beq_iff_eq] at hd
      subst hd
      rw [cons_append, dropWhile_cons_of_neg (by decide)]
      simp

theorem readsAs_wildcard (hr : Apart rest) : ReadsAs (unaryAt (depth + 1)) ['_'] rest .wildcard := by
  refine yields_unaryAt (by simp) (by simp) (.inr ?_) ?_
  · exact yields_name_alone (c := '_') (by decide) rfl hr.parted fun h => (hr.plain _ h).2 rfl
  · refine Yields.rule (Refuses.either (refuses_group (by simp)) ?_)
    refine Refuses.either (refuses_literal_of_head (c := '.') rfl (by simp)).bind.rule (Yields.either (Yields.rule ?_))
    refine Yields.bind (@yields_takeFirst _ _ 1 _ ?_ (yields_pure ⟨rfl, rfl⟩))
    have hn : rest.head?.any inKindName = false := by
      cases rest with
      | nil => rfl
      | cons c rest => simpa using hr.parted c rfl
    simp [wildcardLength?, hn]

theorem readsAs_ellipsis : ReadsAs (unaryAt (depth + 1)) "...".toList rest .ellipsis := by
  refine yields_unaryAt (by simp) (by simp) (.inl (refuses_name (by simp; decide))) ?_
  refine Yields.rule (Refuses.either (refuses_group (by simp)) (Yields.either (Yields.rule ?_)))
  exact Yields.bind (yields_literal (yields_pure ⟨rfl, rfl⟩))

theorem readsAs_metavar (bound : CaptureName) (hr : Apart rest) :
    ReadsAs (unaryAt (depth + 1)) ('$' :: bound.text.toList) rest (.metavar bound) := by
  refine yields_unaryAt (by simp) (by simp) (.inl (refuses_name (by simp; decide))) ?_
  refine Yields.rule (Refuses.either (refuses_group (by simp)) ?_)
  refine Refuses.either (refuses_literal_of_head (c := '.') rfl (by simp)).bind.rule ?_
  refine Refuses.either (refuses_wildcard (by simp)).bind.rule (Yields.either (Yields.rule ?_))
  have hp : ∀ c ∈ rest.head?, inName c = false := by
    intro c hc
    have hp := hr.parted c hc
    rw [inKindName, Bool.or_eq_false_iff] at hp
    exact hp.1
  have hl : metavarLength? ('$' :: bound.text.toList ++ rest) = some ('$' :: bound.text.toList).length := by
    rw [cons_append, metavarLength?, bound.nameLength? hp]
    rfl
  refine Yields.bind (yields_takeFirst hl (yields_pure ?_))
  rw [take_left, drop_left, drop_succ_cons, drop_zero, String.ofList_toList]
  exact ⟨rfl, rfl⟩

theorem readsAs_text (value : String) :
    ReadsAs (unaryAt (depth + 1)) ('"' :: (Sexp.escape value.toList ++ ['"'])) rest (.text value) := by
  refine yields_unaryAt (by simp) (by simp) (.inl (refuses_name (by simp; decide))) ?_
  refine Yields.rule (Refuses.either (refuses_group (by simp)) ?_)
  refine Refuses.either (refuses_literal_of_head (c := '.') rfl (by simp)).bind.rule ?_
  refine Refuses.either (refuses_wildcard (by simp)).bind.rule ?_
  refine Refuses.either (refuses_metavar (by simp)).bind.rule (Yields.either ?_)
  exact Yields.bind (yields_stringLiteral value (yields_pure ⟨rfl, rfl⟩))

theorem readsAs_regex (src : RegexText) :
    ReadsAs (unaryAt (depth + 1)) ('/' :: (src.text.toList ++ ['/'])) rest (.regex src) := by
  refine yields_unaryAt (by simp) (by simp) (.inl (refuses_name (by simp; decide))) ?_
  refine Yields.rule (Refuses.either (refuses_group (by simp)) ?_)
  refine Refuses.either (refuses_literal_of_head (c := '.') rfl (by simp)).bind.rule ?_
  refine Refuses.either (refuses_wildcard (by simp)).bind.rule ?_
  refine Refuses.either (refuses_metavar (by simp)).bind.rule ?_
  refine Refuses.either (refuses_stringLiteral (by simp) (by simp)).bind (Yields.either (Yields.rule ?_))
  have hf : (src.text.toList ++ '/' :: rest).head? ≠ some '/' := by
    cases hl : src.text.toList with
    | nil => exact absurd (String.toList_eq_nil_iff.1 hl) src.ne_empty
    | cons c more =>
      have hs := src.noSlash
      rw [hl] at hs
      intro h
      cases h
      exact hs mem_cons_self
  have hln : regexLength? ('/' :: (src.text.toList ++ ['/']) ++ rest) =
      some ('/' :: (src.text.toList ++ ['/'])).length := by
    rw [cons_append, append_assoc, singleton_append, regexLength?, if_neg (by simpa using hf),
      slashedLength?_append src.noSlash src.noBreak src.closed]
    simp
  refine Yields.bind (yields_takeFirst hln (yields_pure ?_))
  rw [take_left, drop_left, drop_succ_cons, drop_zero, dropLast_concat,
    unescapeSlashes_of_not_mem src.noSlash, String.ofList_toList]
  exact ⟨rfl, rfl⟩

/-! ## Kinds -/

/-- What starts with the name of a kind is a kind, if no colon comes after the name. -/
theorem yields_unaryAt_kind (kind : KindName) (hr : ∀ c ∈ rest.head?, inKindName c = false)
    (hcl : (rest.dropWhile isSpace).head? ≠ some ':')
    (h : Yields (kindNode (alternationOf (unaryAt depth))) (kind.text.toList ++ rest) post) :
    Yields (unaryAt (depth + 1)) (kind.text.toList ++ rest) post := by
  obtain ⟨c, more, hw, hc⟩ := Term.exists_eq_cons kind.starts
  have hi := kind.inside
  rw [hw, all_cons, Bool.and_eq_true] at hi
  have hh : ∀ d, startsName d = false → (kind.text.toList ++ rest).head? ≠ some d :=
    fun d hd => Term.head?_ne_of_startsName kind.starts hd rest
  have hwl : wildcardLength? (kind.text.toList ++ rest) = none := by
    rw [hw, cons_append]
    unfold wildcardLength?
    split
    next left heq =>
      obtain ⟨rfl, rfl⟩ := List.cons.inj heq
      cases more with
      | nil => exact absurd (String.toList_inj.1 (hw.trans rfl)) kind.ne_wildcard
      | cons d more =>
        rw [all_cons, Bool.and_eq_true] at hi
        simp [hi.2.1]
    · rfl
  refine yields_unaryAt (hh _ (by decide)) (hh _ (by decide)) (.inr ?_) ?_
  · rw [hw]
    exact yields_name_alone hc hi.2 hr hcl
  · refine Yields.rule (Refuses.either (refuses_group (hh _ (by decide))) ?_)
    refine Refuses.either (refuses_literal_of_head (c := '.') rfl (hh _ (by decide))).bind.rule ?_
    refine Refuses.either (refuses_takeFirst hwl).bind.rule ?_
    refine Refuses.either (refuses_metavar (hh _ (by decide))).bind.rule ?_
    refine Refuses.either (refuses_stringLiteral (hh _ (by decide)) (hh _ (by decide))).bind ?_
    exact Refuses.either (refuses_regex (hh _ (by decide))).bind.rule (Yields.either h)

theorem readsAs_kind (kind : KindName) (hr : Apart rest) :
    ReadsAs (unaryAt (depth + 1)) kind.text.toList rest (.kind kind) := by
  refine yields_unaryAt_kind kind hr.parted (fun h => (hr.plain _ h).2 rfl) (Yields.rule ?_)
  refine Yields.bind ((kind.yields hr.parted).imp ?_)
  rintro _ _ ⟨rfl, rfl⟩
  refine Yields.bind (Refuses.optional (refuses_childList fun h => (hr.plain _ h).1 rfl) (yields_pure ?_))
  exact ⟨rfl, rfl⟩

end Pattern

end TreeLint
