import TreeLint.Proofs.SteadyReading

/-!
# What readers find

Rules to tell what a reader finds at the front of a text, made of what its parts find.

* `Yields`: a reader finds a value and leaves a rest that satisfy a condition;
* `Refuses`: a reader fails;
* `Yields.bind`, `Yields.rule`, `Refuses.either`, `Refuses.optional`: rules for readers in a row and for choices;
* `Separates.yields_separated`: the items of a list with separators between them.
-/

namespace TreeLint

open List

namespace Reading

open Predicate (isSpace blanks)

variable {α β γ : Type} {text rest : List Char} {post : α → List Char → Prop}

/-- Wherever the text stands, a reader finds a value and leaves a rest that satisfy a condition. -/
def Yields (reader : Reading α) (text : List Char) (post : α → List Char → Prop) : Prop :=
  ∀ position, ∃ value after, (reader ⟨text, position⟩).found = some (value, after) ∧ post value after.rest

/-- Wherever the text stands, a reader fails. -/
def Refuses (reader : Reading α) (text : List Char) : Prop :=
  ∀ position, (reader ⟨text, position⟩).found = none

variable {first second reader : Reading α} {next : α → Reading β} {post' : β → List Char → Prop} {mark : String}
  {count : Nat} {c : Char}

theorem Yields.imp {stronger : α → List Char → Prop} (h : Yields reader text stronger)
    (hi : ∀ value rest, stronger value rest → post value rest) : Yields reader text post := by
  intro pos
  obtain ⟨value, after, hf, hp⟩ := h pos
  exact ⟨value, after, hf, hi _ _ hp⟩

theorem yields_pure {value : α} (h : post value text) : Yields (pure value) text post :=
  fun pos => ⟨value, ⟨text, pos⟩, rfl, h⟩

/-- Readers one after the other: the second goes on where the first stopped. -/
theorem Yields.bind (h : Yields first text fun value rest => Yields (next value) rest post') :
    Yields (first >>= next) text post' := by
  intro pos
  obtain ⟨value, after, hf, hn⟩ := h pos
  obtain ⟨value', after', hf', hp⟩ := hn after.position
  refine ⟨value', after', ?_, hp⟩
  rw [found_bind, hf]
  exact hf'

theorem Refuses.bind (h : Refuses first text) : Refuses (first >>= next) text := by
  intro pos
  rw [found_bind, h pos]
  rfl

/-- What is refused behind something that was read is refused as a whole. -/
theorem Yields.refuses (h : Yields first text fun value rest => Refuses (next value) rest) :
    Refuses (first >>= next) text := by
  intro pos
  obtain ⟨value, after, hf, hn⟩ := h pos
  rw [found_bind, hf]
  exact hn after.position

theorem Yields.rule (h : Yields reader text post) : Yields (Reading.rule reader) text post := by
  intro pos
  rw [found_rule]
  exact h pos

theorem Refuses.rule (h : Refuses reader text) : Refuses (Reading.rule reader) text := by
  intro pos
  rw [found_rule]
  exact h pos

theorem Yields.either (h : Yields first text post) : Yields (Reading.either first second) text post := by
  intro pos
  obtain ⟨value, after, hf, hp⟩ := h pos
  exact ⟨value, after, by rw [found_either, hf]; rfl, hp⟩

/-- The second choice counts where the first one refuses. -/
theorem Refuses.either (h : Refuses first text) (hs : Yields second text post) :
    Yields (Reading.either first second) text post := by
  intro pos
  obtain ⟨value, after, hf, hp⟩ := hs pos
  exact ⟨value, after, by rw [found_either, h pos, hf]; rfl, hp⟩

theorem Refuses.both (h : Refuses first text) (hs : Refuses second text) :
    Refuses (Reading.either first second) text := by
  intro pos
  rw [found_either, h pos, hs pos]
  rfl

theorem refuses_fail : Refuses (fail : Reading α) text :=
  fun _ => rfl

theorem refuses_firstOf {readers : List (Reading α)} (h : ∀ reader ∈ readers, Refuses reader text) :
    Refuses (firstOf readers) text := by
  induction readers with
  | nil => exact refuses_fail
  | cons reader readers ih =>
    exact Refuses.both (h reader mem_cons_self) (ih (forall_mem_cons.1 h).2)

theorem yields_here {post : Nat → List Char → Prop} (h : ∀ pos, post pos text) : Yields here text post :=
  fun pos => ⟨pos, ⟨text, pos⟩, rfl, h pos⟩

theorem Yields.optional {post : Option α → List Char → Prop} (hne : text ≠ [])
    (h : Yields reader text fun value => post (some value)) : Yields (Reading.optional reader) text post := by
  intro pos
  obtain ⟨value, after, hf, hp⟩ := h pos
  refine ⟨some value, after, ?_, hp⟩
  rw [found_optional, if_neg (by simpa using hne), hf]
  rfl

theorem Refuses.optional {post : Option α → List Char → Prop} (h : Refuses reader text) (hp : post none text) :
    Yields (Reading.optional reader) text post := by
  intro pos
  refine ⟨none, ⟨text, pos⟩, ?_, hp⟩
  rw [found_optional, h pos]
  split <;> rfl

theorem yields_takeFirst {length : List Char → Option Nat} {count : Nat} {post : List Char → List Char → Prop}
    (hl : length text = some count) (h : post (text.take count) (text.drop count)) :
    Yields (takeFirst length) text post := by
  intro pos
  refine ⟨text.take count, ⟨text.drop count, pos + count⟩, ?_, h⟩
  rw [found_takeFirst, hl]
  rfl

theorem refuses_takeFirst {length : List Char → Option Nat} (h : length text = none) :
    Refuses (takeFirst length) text := by
  intro pos
  rw [found_takeFirst, h]
  rfl

theorem yields_literal {post : Unit → List Char → Prop} (h : post () rest) :
    Yields (literal mark) (mark.toList ++ rest) post := by
  refine Yields.bind (@yields_takeFirst _ _ mark.length _ (by simp) (yields_pure ?_))
  rwa [← String.length_toList, drop_left]

theorem refuses_literal (h : mark.toList.isPrefixOf text = false) : Refuses (literal mark) text :=
  Refuses.bind (refuses_takeFirst (by rw [if_neg (by simp [h])]))

theorem isPrefixOf_of_head {mark : List Char} (hm : mark.head? = some c) (h : text.head? ≠ some c) :
    mark.isPrefixOf text = false := by
  obtain ⟨more, rfl⟩ := head?_eq_some_iff.1 hm
  cases text with
  | nil => rfl
  | cons first text =>
    have hne : c ≠ first := fun heq => h (by rw [heq]; rfl)
    simp [List.isPrefixOf, hne]

theorem refuses_keyword {word : String} (h : word.toList.isPrefixOf text = false) :
    Refuses (Predicate.keyword word) text :=
  Refuses.rule (Refuses.bind (refuses_takeFirst (by rw [Predicate.wordLength?, h]; rfl)))

theorem refuses_literal_of_head (hm : mark.toList.head? = some c) (h : text.head? ≠ some c) :
    Refuses (literal mark) text :=
  refuses_literal (isPrefixOf_of_head hm h)

theorem yields_literal_cons {post : Unit → List Char → Prop} (hm : mark.toList = [c]) (h : post () rest) :
    Yields (literal mark) (c :: rest) post := by
  have hy : Yields (literal mark) (mark.toList ++ rest) post := yields_literal h
  rwa [hm] at hy

theorem yields_withText {reader : Reading α} {post : α → List Char → Prop} (h : Yields reader text post) :
    Yields (withText reader) text fun pair after => post pair.1 after := by
  intro pos
  obtain ⟨value, after, hf, hp⟩ := h pos
  exact ⟨_, after, by rw [withText, hf]; rfl, hp⟩

theorem yields_blanks {post : Unit → List Char → Prop} (h : post () (text.dropWhile isSpace)) :
    Yields blanks text post :=
  fun pos => ⟨(), _, found_blanks text pos, h⟩

/-! ## Lists -/

theorem Yields.upTo {post : List α → List Char → Prop} (hne : text ≠ [])
    (h : Yields reader text fun value rest => Yields (Reading.upTo reader count) rest fun values =>
      post (value :: values)) : Yields (Reading.upTo reader (count + 1)) text post := by
  intro pos
  obtain ⟨value, after, hf, ho⟩ := h pos
  obtain ⟨values, after', hf', hp⟩ := ho after.position
  refine ⟨value :: values, after', ?_, hp⟩
  rw [found_upTo_of_some hf (by simpa using hne)]
  exact congrArg (Option.map _) hf'

/-- A repetition ends where its reader refuses. -/
theorem Refuses.upTo {post : List α → List Char → Prop} (h : Refuses reader text) (hp : post [] text) :
    Yields (Reading.upTo reader count) text post :=
  fun pos => ⟨[], ⟨text, pos⟩, found_upTo_of_none (h pos) count, hp⟩

theorem Yields.many {post : List α → List Char → Prop} (h : Yields (Reading.upTo reader text.length) text post) :
    Yields (Reading.many reader) text post :=
  fun pos => h pos

/-- Two texts that are the same but for blanks at their front. -/
def Same (text text' : List Char) : Prop :=
  text.dropWhile isSpace = text'.dropWhile isSpace

/-- A text that does not start with a blank. -/
def Solid (text : List Char) : Prop :=
  ∃ c rest, text = c :: rest ∧ isSpace c = false

theorem Solid.dropWhile_append (h : Solid text) (more : List Char) :
    (text ++ more).dropWhile isSpace = text ++ more := by
  obtain ⟨c, rest, rfl, hc⟩ := h
  rw [cons_append, dropWhile_cons_of_neg (by simp [hc])]

/-- A separator and how it is written between two items. -/
structure Separates (separator : Reading Unit) (gap : List Char) : Prop where
  ne_blank : gap.dropWhile isSpace ≠ []
  finds : ∀ {text rest : List Char} {post : Unit → List Char → Prop}, Same text (gap ++ rest) →
    rest.dropWhile isSpace = rest → post () rest → Yields separator text post

theorem dropWhile_append_of_ne_nil {gap : List Char} (h : gap.dropWhile isSpace ≠ []) (rest : List Char) :
    (gap ++ rest).dropWhile isSpace = gap.dropWhile isSpace ++ rest := by
  rw [List.dropWhile_append, if_neg (by simpa using h)]

/-- A sign that is written with a blank after it separates. -/
theorem separates_of {sign : Reading Unit} {word gap : List Char} (h : gap.dropWhile isSpace = word ++ [' '])
    (hs : ∀ {rest post}, post () (' ' :: rest) → Yields sign (word ++ ' ' :: rest) post) :
    Separates (do blanks; sign; blanks) gap := by
  have hne : gap.dropWhile isSpace ≠ [] := by simp [h]
  refine ⟨hne, fun {text rest post} ht hr hp => Yields.bind (yields_blanks ?_)⟩
  rw [ht, dropWhile_append_of_ne_nil hne, h, append_assoc, singleton_append]
  refine Yields.bind (hs (yields_blanks ?_))
  rwa [dropWhile_cons_of_pos (by decide), hr]

theorem separates_literal {gap : List Char} (h : gap.dropWhile isSpace = mark.toList ++ [' ']) :
    Separates (do blanks; literal mark; blanks) gap :=
  separates_of h yields_literal

theorem refuses_separator (h : mark.toList.isPrefixOf (text.dropWhile isSpace) = false) :
    Refuses (do blanks; literal mark; blanks) text :=
  Yields.refuses (yields_blanks (refuses_literal h).bind)

/-- A list ends at a mark that is neither blank nor a comma. -/
theorem refuses_comma (hc : isSpace c = false) (hcm : c ≠ ',') (hs : Same text (c :: rest)) :
    Refuses (do blanks; literal ","; blanks) text := by
  refine refuses_separator ?_
  rw [hs, dropWhile_cons_of_neg (by simp [hc])]
  exact isPrefixOf_of_head (c := ',') rfl (by simpa using hcm)

/-- Items that are written one after the other, each after a mark. -/
def writeAll (gap : List Char) (write : β → List Char) : List β → List Char
  | [] => []
  | part :: parts => gap ++ (write part ++ writeAll gap write parts)

theorem intercalate_cons (gap text : List Char) (texts : List (List Char)) :
    gap.intercalate (text :: texts) = text ++ writeAll gap id texts := by
  induction texts generalizing text with
  | nil => simp [writeAll]
  | cons next texts ih =>
    rw [intercalate_cons_cons, ih, writeAll, append_assoc]
    rfl

theorem writeAll_map (gap : List Char) (write : β → List Char) (parts : List β) :
    writeAll gap id (parts.map write) = writeAll gap write parts := by
  induction parts with
  | nil => rfl
  | cons part parts ih =>
    rw [map_cons, writeAll, writeAll, ih]
    rfl

theorem length_le_intercalate (gap : List Char) {texts : List (List Char)} (h : text ∈ texts) :
    text.length ≤ (gap.intercalate texts).length := by
  induction texts with
  | nil => cases h
  | cons first texts ih =>
    rw [intercalate_cons, length_append]
    rcases mem_cons.1 h with rfl | h
    · exact Nat.le_add_right _ _
    · cases texts with
      | nil => cases h
      | cons next texts =>
        have hr := ih h
        rw [intercalate_cons] at hr
        rw [writeAll, length_append]
        exact Nat.le_trans hr (Nat.le_trans (Nat.le_add_left _ _) (Nat.le_add_left _ _))

variable {item : Reading α} {separator : Reading Unit} {view : α → γ} {write : β → List Char} {meaning : β → γ}
  {gap : List Char} {follows : List Char → Prop}

private theorem writeAll_cons_append (part : β) (parts : List β) (rest : List Char) :
    writeAll gap write (part :: parts) ++ rest = gap ++ (write part ++ (writeAll gap write parts ++ rest)) := by
  simp [writeAll]

private theorem follows_writeAll (parts : List β) (hf : ∀ rest, follows (gap ++ rest)) (hr : follows rest) :
    follows (writeAll gap write parts ++ rest) := by
  cases parts with
  | nil => exact hr
  | cons part parts =>
    rw [writeAll_cons_append]
    exact hf _

private theorem Separates.length_le_writeAll (h : Separates separator gap) (parts : List β) (rest : List Char) :
    parts.length ≤ ((writeAll gap write parts ++ rest).dropWhile isSpace).length := by
  induction parts with
  | nil => exact Nat.zero_le _
  | cons part parts ih =>
    have hl := (dropWhile_sublist isSpace (l := writeAll gap write parts ++ rest)).length_le
    have hg := length_pos_iff.2 h.ne_blank
    rw [writeAll_cons_append, dropWhile_append_of_ne_nil h.ne_blank]
    simp only [length_append, length_cons] at hl ⊢
    omega

private theorem Separates.yields_upTo (hg : Separates separator gap) {parts : List β} (hc : parts.length ≤ count)
    (hi : ∀ part ∈ parts, ∀ rest, follows rest → Yields item (write part ++ rest) fun value after =>
      view value = meaning part ∧ Same after rest) (hs : ∀ part ∈ parts, Solid (write part))
    (hf : ∀ rest, follows (gap ++ rest)) (hr : follows rest)
    (he : ∀ text, Same text rest → Refuses separator text) (ht : Same text (writeAll gap write parts ++ rest)) :
    Yields (Reading.upTo (do separator; item) count) text fun values after =>
      values.map view = parts.map meaning ∧ Same after rest := by
  induction parts generalizing text count with
  | nil => exact Refuses.upTo (Refuses.bind (he text ht)) ⟨rfl, ht⟩
  | cons part parts ih =>
    obtain ⟨count, rfl⟩ := Nat.exists_eq_succ_of_ne_zero (by rw [length_cons] at hc; omega : count ≠ 0)
    rw [writeAll_cons_append] at ht
    -- at the end of the text no further item would be tried
    have hne : text ≠ [] := by
      rintro rfl
      rw [Same, dropWhile_append_of_ne_nil hg.ne_blank] at ht
      exact hg.ne_blank (append_eq_nil_iff.1 ht.symm).1
    have hp := (hs part mem_cons_self).dropWhile_append (writeAll gap write parts ++ rest)
    refine Yields.upTo hne (Yields.bind (hg.finds ht hp ?_))
    refine (hi part mem_cons_self _ (follows_writeAll parts hf hr)).imp fun value after hv => ?_
    refine (ih (Nat.le_of_succ_le_succ hc) (forall_mem_cons.1 hi).2 (forall_mem_cons.1 hs).2
      hv.2).imp fun values after hvl => ?_
    exact ⟨by rw [map_cons, map_cons, hv.1, hvl.1], hvl.2⟩

/-- Parts with a separator between them are read one by one. -/
theorem Separates.yields_separated (hg : Separates separator gap) {part : β} {parts : List β}
    (hi : ∀ part' ∈ part :: parts, ∀ rest, follows rest → Yields item (write part' ++ rest) fun value after =>
      view value = meaning part' ∧ Same after rest)
    (hs : ∀ part' ∈ parts, Solid (write part')) (hf : ∀ rest, follows (gap ++ rest)) (hr : follows rest)
    (he : ∀ text, Same text rest → Refuses separator text) :
    Yields (separated item separator) (write part ++ (writeAll gap write parts ++ rest))
      fun values after => values.map view = (part :: parts).map meaning ∧ Same after rest := by
  refine Yields.bind ((hi part mem_cons_self _ (follows_writeAll parts hf hr)).imp fun value after hv => Yields.bind ?_)
  have hc : parts.length ≤ after.length := by
    have hl : parts.length ≤ ((writeAll gap write parts ++ rest).dropWhile isSpace).length :=
      hg.length_le_writeAll parts rest
    rw [← hv.2] at hl
    exact Nat.le_trans hl (dropWhile_sublist _).length_le
  have ho := hg.yields_upTo hc (forall_mem_cons.1 hi).2 hs hf hr he hv.2
  refine ho.many.imp fun values after hvl => yields_pure ?_
  exact ⟨by rw [map_cons, map_cons, hv.1, hvl.1], hvl.2⟩

end Reading

end TreeLint
