import TreeLint.Predicate.Reader

/-!
# Readers that are not disturbed by what follows

A text may stand by itself or at the front of a longer one. Where the rest of the longer text is empty or starts, after
blanks, with a closing bracket, a comma or a bar, many readers find the same in both.

* `closes`: a text closes so many brackets and ends outside of strings;
* `Steady`: at the front of a longer text a reader fails where it fails on a text that closes its brackets, and else
  takes the same characters, but for blanks at the end;
* `Steady.bind`, `Steady.either`, `Steady.optional`, `Steady.many` and `Steady.separated`: readers made of steady
  readers are steady.
-/

namespace TreeLint

open List

variable {c : Char} {mark : String}

namespace Reading

open Predicate (isSpace quotedLength?)

/-! ## Texts that follow -/

/-- Whether a character ends a part of a larger text. -/
def isStop (c : Char) : Bool :=
  c == ')' || c == ']' || c == ',' || c == '|'

/-- A text that consists of blanks and then of `core`, which is empty or starts with a stop. -/
structure Ends (core more : List Char) : Prop where
  core_eq : more.dropWhile isSpace = core
  stops : ∀ c ∈ core.head?, isStop c

def spaces : List Char :=
  (blankRanges.flatMap fun range => List.range' range.1 (range.2 + 1 - range.1)).map Char.ofNat

/-- The characters that a text may start with that follows. -/
def edges : List Char :=
  [')', ']', ',', '|'] ++ spaces

theorem mem_spaces (h : isSpace c) : c ∈ spaces := by
  rw [isSpace, Bool.and_eq_true, isBlank, inRanges, any_eq_true] at h
  obtain ⟨⟨range, hr, hb⟩, -⟩ := h
  rw [Bool.and_eq_true, decide_eq_true_eq, decide_eq_true_eq] at hb
  refine mem_map.2 ⟨c.toNat, mem_flatMap.2 ⟨range, hr, ?_⟩, Char.ofNat_toNat c⟩
  rw [mem_range'_1]
  omega

variable {core more text : List Char}

theorem isSpace_of_isStop (h : isStop c) : isSpace c = false := by
  simp only [isStop, Bool.or_eq_true, beq_iff_eq, or_assoc] at h
  rcases h with rfl | rfl | rfl | rfl <;> decide

/-- What follows, without its blanks, follows as well. -/
theorem Ends.again (h : Ends core more) : Ends core core := by
  refine ⟨?_, h.stops⟩
  cases core with
  | nil => rfl
  | cons c core => rw [dropWhile_cons_of_neg (by simp [isSpace_of_isStop (h.stops c rfl)])]

theorem Ends.mem_edges (h : Ends core more) (hc : c ∈ more.head?) : c ∈ edges := by
  cases more with
  | nil => cases hc
  | cons first more =>
    obtain rfl : first = c := Option.some.inj hc
    refine mem_append.2 ?_
    cases hs : isSpace first with
    | true => exact .inr (mem_spaces hs)
    | false =>
      have hcr := h.core_eq
      rw [dropWhile_cons_of_neg (by simp [hs])] at hcr
      have hst := h.stops first (by rw [← hcr]; rfl)
      simp only [isStop, Bool.or_eq_true, beq_iff_eq, or_assoc] at hst
      exact .inl (by simpa using hst)

/-! ## Brackets and strings -/

/-- Where in a text a character is. -/
inductive Quoting where
  | outside
  | inside (quote : Char)
  /-- After a backslash in a string. -/
  | escaped (quote : Char)

/-- Whether a text closes so many brackets and ends outside of strings. -/
def closes : Quoting → Nat → List Char → Bool
  | .outside, depth, [] => depth == 0
  | .outside, depth, c :: rest =>
    if c == '"' || c == '\'' then closes (.inside c) depth rest
    else if c == '(' || c == '[' then closes .outside (depth + 1) rest
    else if c == ')' || c == ']' then 0 < depth && closes .outside (depth - 1) rest
    else closes .outside depth rest
  | .inside _, _, [] => false
  | .inside quote, depth, c :: rest =>
    if c == quote then closes .outside depth rest
    else if c == '\\' then closes (.escaped quote) depth rest
    else closes (.inside quote) depth rest
  | .escaped _, _, [] => false
  | .escaped quote, depth, c :: rest => c != '\n' && closes (.inside quote) depth rest

def signs : List Char :=
  ['"', '\'', '(', '[', ')', ']']

def isPlain (c : Char) : Bool :=
  !signs.contains c

private theorem closes_drop {count : Nat} (h : ∀ c ∈ text.take count, isPlain c) (depth : Nat) :
    closes .outside depth text = closes .outside depth (text.drop count) := by
  induction count generalizing text with
  | zero => rfl
  | succ count ih =>
    cases text with
    | nil => rfl
    | cons c text =>
      have hc : isPlain c := h c mem_cons_self
      simp only [isPlain, signs, contains_cons, contains_nil, Bool.or_false, Bool.not_eq_true',
        Bool.or_eq_false_iff, beq_eq_false_iff_ne, ne_eq] at hc
      rw [drop_succ_cons, ← ih (forall_mem_cons.1 h).2]
      simp [closes, hc]

theorem quotedLength?_append {quote : Char} {count : Nat} (h : quotedLength? quote text = some count)
    (more : List Char) : quotedLength? quote (text ++ more) = some count ∧ count ≤ text.length ∧
      ∀ depth, closes (.inside quote) depth text = closes .outside depth (text.drop count) := by
  fun_induction quotedLength? quote text generalizing count with
  | case1 => cases h
  | case2 c rest hq =>
    obtain rfl := Option.some.inj h
    rw [cons_append, quotedLength?.eq_def]
    simp [closes, hq]
  | case3 => cases h
  | case4 c hq hs escaped rest hl ih =>
    obtain ⟨length, hln, rfl⟩ := Option.map_eq_some_iff.1 h
    obtain ⟨hm, hle, hc⟩ := ih hln
    simp only [beq_iff_eq] at hq hs hl
    subst hs
    refine ⟨by simp [quotedLength?, hq, hl, hm], by simpa using hle, fun depth => ?_⟩
    simp [closes, hq, hl, hc]
  | case5 => cases h
  | case6 c rest hq hs ih =>
    obtain ⟨length, hln, rfl⟩ := Option.map_eq_some_iff.1 h
    obtain ⟨hm, hle, hc⟩ := ih hln
    simp only [beq_iff_eq] at hq hs
    refine ⟨?_, by simpa using hle, fun depth => by simp [closes, hq, hs, hc]⟩
    rw [cons_append, quotedLength?.eq_def]
    simp [hq, hs, hm]

/-- In a text that closes its brackets every string ends. -/
theorem not_closes_of_quotedLength? {quote : Char} (h : quotedLength? quote text = none) (depth : Nat) :
    closes (.inside quote) depth text = false := by
  fun_induction quotedLength? quote text with
  | case1 => rfl
  | case2 => cases h
  | case3 c hq hs escaped rest hl =>
    simp only [beq_iff_eq] at hq hs hl
    subst hs hl
    simp [closes, hq]
  | case4 c hq hs escaped rest hl ih =>
    have hi := ih (Option.map_eq_none_iff.1 h)
    simp only [beq_iff_eq] at hq hs hl
    subst hs
    simp [closes, hq, hi]
  | case5 c hq hs =>
    simp only [beq_iff_eq] at hq hs
    subst hs
    simp [closes, hq]
  | case6 c rest hq hs ih =>
    have hi := ih (Option.map_eq_none_iff.1 h)
    simp only [beq_iff_eq] at hq hs
    simp [closes, hq, hs, hi]

/-! ## Steady readers -/

variable {α β γ δ : Type} {size least : Nat} {i j l : Nat}

/-- What a reader finds in a text and what it finds at the front of a longer one: nothing, or values that look the same
and rests that go on as the two texts do. -/
inductive Agree (core : List Char) (view : α → γ) : Option (α × Place) → Option (α × Place) → Prop
  | failed : Agree core view none none
  | found {value value' : α} {rest more : List Char} {position position' : Nat} : view value = view value' →
      Ends core more → Agree core view (some (value, ⟨rest, position⟩)) (some (value', ⟨rest ++ more, position'⟩))

theorem Agree.eq_none_or {view : α → γ} {alone amid : Option (α × Place)} (h : Agree core view alone amid) :
    alone = none ∧ amid = none ∨ ∃ value value' rest more pos position', view value = view value' ∧
      Ends core more ∧ alone = some (value, ⟨rest, pos⟩) ∧ amid = some (value', ⟨rest ++ more, position'⟩) := by
  cases h with
  | failed => exact .inl ⟨rfl, rfl⟩
  | found hv he => exact .inr ⟨_, _, _, _, _, _, hv, he, rfl, rfl⟩

/-- On texts up to a size, a reader takes at least so many characters and goes from the inside of `i` brackets to the
inside of `j`, and at the front of a longer text another reader agrees with it. -/
structure Steady (size least i j : Nat) (view : α → γ) (first second : Reading α) : Prop where
  takes : ∀ {text : List Char} {position : Nat} {value : α} {after : Place}, text.length ≤ size →
    (first ⟨text, position⟩).found = some (value, after) → after.rest.length + least ≤ text.length ∧
      ∀ depth, closes .outside (depth + i) text = closes .outside (depth + j) after.rest
  agrees : ∀ {core text more : List Char} {position position' depth : Nat}, text.length ≤ size →
    closes .outside (depth + i) text → Ends core more →
      Agree core view (first ⟨text, position⟩).found (second ⟨text ++ more, position'⟩).found

variable {view : α → γ} {view' : β → δ} {first second reader : Reading α} {least' : Nat}

theorem Steady.mono (h : Steady size least i j view first second) {size' : Nat} (hs : size' ≤ size)
    (hl : least' ≤ least) : Steady size' least' i j view first second where
  takes ht hf := by
    obtain ⟨hln, hc⟩ := h.takes (Nat.le_trans ht hs) hf
    exact ⟨by omega, hc⟩
  agrees ht := h.agrees (Nat.le_trans ht hs)

theorem Steady.inside (h : Steady size least i j view first second) :
    Steady size least (i + 1) (j + 1) view first second where
  takes ht hf := by
    obtain ⟨hl, hc⟩ := h.takes ht hf
    refine ⟨hl, fun depth => ?_⟩
    rw [Nat.add_comm i, Nat.add_comm j, ← Nat.add_assoc, ← Nat.add_assoc]
    exact hc (depth + 1)
  agrees {core text more pos position' depth} ht hc he := by
    rw [Nat.add_comm i, ← Nat.add_assoc] at hc
    exact h.agrees ht hc he

theorem steady_pure {value value' : α} (h : view value = view value') :
    Steady size 0 i i view (pure value) (pure value') where
  takes _ hf := by
    obtain ⟨rfl, rfl⟩ := Prod.mk.inj (Option.some.inj hf)
    exact ⟨Nat.le_refl _, fun _ => rfl⟩
  agrees _ _ he := .found h he

theorem steady_fail : Steady size least i j view fail fail where
  takes _ hf := by cases hf
  agrees _ _ _ := .failed

theorem steady_here : Steady size 0 i i (fun _ => ()) here here where
  takes _ hf := by
    obtain ⟨rfl, rfl⟩ := Prod.mk.inj (Option.some.inj hf)
    exact ⟨Nat.le_refl _, fun _ => rfl⟩
  agrees _ _ he := .found rfl he

theorem found_bind (first : Reading α) (next : α → Reading β) (place : Place) :
    ((first >>= next) place).found = (first place).found.bind fun found => (next found.1 found.2).found := by
  change (Reading.bind first next place).found = _
  unfold Reading.bind
  dsimp only
  cases (first place).found <;> rfl

theorem Steady.bind {next next' : α → Reading β} (hf : Steady size least i j view first second)
    (hn : least ≤ size → ∀ value value', view value = view value' →
      Steady (size - least) least' j l view' (next value) (next' value')) :
    Steady size (least + least') i l view' (first >>= next) (second >>= next') where
  takes {text pos value after} ht hfn := by
    rw [found_bind] at hfn
    obtain ⟨⟨middle, place⟩, hm, ha⟩ := Option.bind_eq_some_iff.1 hfn
    obtain ⟨hl, hc⟩ := hf.takes ht hm
    obtain ⟨hl', hc'⟩ := (hn (by omega) middle middle rfl).takes (by omega) ha
    exact ⟨by omega, fun depth => (hc depth).trans (hc' depth)⟩
  agrees {core text more pos position' depth} ht hc he := by
    rw [found_bind, found_bind]
    have htk := @hf.takes text pos
    have hag := @hf.agrees core text more pos position' depth ht hc he
    generalize (first ⟨text, pos⟩).found = alone at hag htk
    generalize (second ⟨text ++ more, position'⟩).found = amid at hag
    cases hag with
    | failed => exact .failed
    | found hv he' =>
      obtain ⟨hl, hr⟩ := htk ht rfl
      dsimp only at hl hr
      exact (hn (by omega) _ _ hv).agrees (by omega) (hr depth ▸ hc) he'

/-- What is made of a value that looks the same looks the same. -/
theorem Steady.map (h : Steady size least i j id first second) (f : α → β) :
    Steady size least i j view' (first >>= fun value => pure (f value)) (second >>= fun value => pure (f value)) := by
  change Steady size (least + 0) i j view' _ _
  exact h.bind fun _ value value' hv => steady_pure (by rw [show value = value' from hv])

theorem found_rule (reader : Reading α) (place : Place) : (rule reader place).found = (reader place).found := by
  unfold rule
  dsimp only
  split <;> simp_all

theorem Steady.rule (h : Steady size least i j view first second) :
    Steady size least i j view (Reading.rule first) (Reading.rule second) where
  takes ht hf := h.takes ht (by rwa [found_rule] at hf)
  agrees ht hc he := by
    rw [found_rule, found_rule]
    exact h.agrees ht hc he

theorem found_either (first second : Reading α) (place : Place) :
    (either first second place).found = (first place).found.or (second place).found := by
  unfold either
  cases h : (first place).found <;> simp [h]

theorem whole_eq_ok_iff {value : α} :
    reader.whole text = .ok value ↔ ∃ after, (reader ⟨text, 0⟩).found = some (value, after) ∧ after.rest = [] := by
  unfold whole
  dsimp only
  rcases (reader ⟨text, 0⟩).found with _ | ⟨found, ⟨rest, pos⟩⟩
  · simp
  · cases rest with
    | nil =>
      refine ⟨fun h => ⟨_, congrArg some (Prod.ext (Except.ok.inj h) rfl), rfl⟩, ?_⟩
      rintro ⟨after, ha, -⟩
      exact congrArg Except.ok (Prod.mk.inj (Option.some.inj ha)).1
    | cons c rest =>
      refine ⟨fun h => (by cases h), ?_⟩
      rintro ⟨after, ha, hr⟩
      rw [← (Prod.mk.inj (Option.some.inj ha)).2] at hr
      cases hr

theorem Steady.either {other other' : Reading α} (hf : Steady size least i j view first second)
    (ho : Steady size least i j view other other') :
    Steady size least i j view (Reading.either first other) (Reading.either second other') where
  takes {text pos value after} ht hfn := by
    rw [found_either, Option.or_eq_some_iff] at hfn
    rcases hfn with hfn | ⟨-, hfn⟩
    · exact hf.takes ht hfn
    · exact ho.takes ht hfn
  agrees {core text more pos position' depth} ht hc he := by
    rw [found_either, found_either]
    have ha := @hf.agrees core text more pos position' depth ht hc he
    generalize (first ⟨text, pos⟩).found = alone at ha
    generalize (second ⟨text ++ more, position'⟩).found = amid at ha
    cases ha with
    | failed => exact ho.agrees ht hc he
    | found hv he' => exact .found hv he'

theorem steady_firstOf {readers : List (Reading α)} (h : ∀ reader ∈ readers, Steady size least i j view reader reader) :
    Steady size least i j view (firstOf readers) (firstOf readers) := by
  induction readers with
  | nil => exact steady_fail
  | cons reader readers ih =>
    exact (h reader mem_cons_self).either (ih (forall_mem_cons.1 h).2)

/-- A reader that takes something fails at the end of a text. -/
private theorem Steady.found_nil (h : Steady size (least + 1) i j view first second) (pos : Nat) :
    (first ⟨[], pos⟩).found = none := by
  cases hf : (first ⟨[], pos⟩).found with
  | none => rfl
  | some found => exact absurd (h.takes (Nat.zero_le _) hf).1 (by simp)

theorem found_optional (reader : Reading α) (place : Place) :
    (optional reader place).found = if place.rest.isEmpty then some (none, place)
      else (reader place).found.elim (some (none, place)) fun found => some (some found.1, found.2) := by
  unfold optional
  split
  · rfl
  · dsimp only
    cases (reader place).found <;> rfl

theorem Steady.optional (h : Steady size (least + 1) i i view first second) :
    Steady size 0 i i (Option.map view) (Reading.optional first) (Reading.optional second) where
  takes {text pos value after} ht hf := by
    rw [found_optional] at hf
    split at hf
    · obtain ⟨rfl, rfl⟩ := Prod.mk.inj (Option.some.inj hf)
      exact ⟨Nat.le_refl _, fun _ => rfl⟩
    · cases hi : (first ⟨text, pos⟩).found with
      | none =>
        rw [hi] at hf
        obtain ⟨rfl, rfl⟩ := Prod.mk.inj (Option.some.inj hf)
        exact ⟨Nat.le_refl _, fun _ => rfl⟩
      | some found =>
        rw [hi] at hf
        obtain ⟨rfl, rfl⟩ := Prod.mk.inj (Option.some.inj hf)
        obtain ⟨hl, hc⟩ := h.takes ht hi
        exact ⟨by omega, hc⟩
  agrees {core text more pos position' depth} ht hc he := by
    have ha := @h.agrees core text more pos position' depth ht hc he
    -- at the end of a text the reader is not tried, but it would fail
    have hn := h.found_nil pos
    rw [found_optional, found_optional]
    cases text with
    | nil =>
      rw [hn] at ha
      generalize (second ⟨[] ++ more, position'⟩).found = amid at ha
      cases ha
      simp only [isEmpty_nil, if_true]
      split
      · exact .found rfl he
      · exact .found rfl he
    | cons c text =>
      rw [if_neg (by simp), if_neg (by simp)]
      generalize (first ⟨c :: text, pos⟩).found = alone at ha
      generalize (second ⟨c :: text ++ more, position'⟩).found = amid at ha
      cases ha with
      | failed => exact .found rfl he
      | found hv he' => exact .found (congrArg some hv) he'

theorem found_upTo_of_none {place : Place} (h : (reader place).found = none) (count : Nat) :
    (upTo reader count place).found = some ([], place) := by
  cases count with
  | zero => rfl
  | succ count =>
    rw [upTo, found_bind, found_optional, h]
    split <;> rfl

theorem found_upTo_of_some {place after : Place} {value : α}
    (h : (reader place).found = some (value, after)) (hr : place.rest.isEmpty = false) (count : Nat) :
    (upTo reader (count + 1) place).found =
      (upTo reader count after).found.map fun others => (value :: others.1, others.2) := by
  rw [upTo, found_bind, found_optional, h, if_neg (by simp [hr])]
  simp only [Option.elim_some, Option.bind_some, found_bind]
  cases (upTo reader count after).found <;> rfl

private theorem Steady.takes_upTo (h : Steady size (least + 1) i i view first second) {count : Nat} {text : List Char}
    {pos : Nat} {values : List α} {after : Place} (ht : text.length ≤ size)
    (hf : (Reading.upTo first count ⟨text, pos⟩).found = some (values, after)) :
    after.rest.length ≤ text.length ∧
      ∀ depth, closes .outside (depth + i) text = closes .outside (depth + i) after.rest := by
  induction count generalizing text pos values after with
  | zero =>
    obtain ⟨rfl, rfl⟩ := Prod.mk.inj (Option.some.inj hf)
    exact ⟨Nat.le_refl _, fun _ => rfl⟩
  | succ count ih =>
    cases hi : (first ⟨text, pos⟩).found with
    | none =>
      rw [found_upTo_of_none hi] at hf
      obtain ⟨rfl, rfl⟩ := Prod.mk.inj (Option.some.inj hf)
      exact ⟨Nat.le_refl _, fun _ => rfl⟩
    | some found =>
      obtain ⟨hl, hc⟩ := h.takes ht hi
      rw [found_upTo_of_some hi (by cases text <;> simp_all)] at hf
      obtain ⟨others, ho, hp⟩ := Option.map_eq_some_iff.1 hf
      obtain ⟨-, rfl⟩ := Prod.mk.inj hp
      obtain ⟨hl', hc'⟩ := @ih found.2.rest found.2.position _ _ (by omega) ho
      exact ⟨by omega, fun depth => (hc depth).trans (hc' depth)⟩

private theorem Steady.agrees_upTo (h : Steady size (least + 1) i i view first second) {count count' : Nat}
    {core text more : List Char} {pos position' depth : Nat} (ht : text.length ≤ size)
    (hc : text.length ≤ count) (hc' : text.length ≤ count') (hcl : closes .outside (depth + i) text)
    (he : Ends core more) :
    Agree core (List.map view) (Reading.upTo first count ⟨text, pos⟩).found
      (Reading.upTo second count' ⟨text ++ more, position'⟩).found := by
  induction count generalizing text more pos position' count' with
  | zero =>
    obtain rfl := length_eq_zero_iff.1 (Nat.le_zero.1 hc)
    rcases (@h.agrees core [] more pos position' depth ht hcl he).eq_none_or with
      ⟨hn, hn'⟩ | ⟨_, _, _, _, _, _, -, -, hs, -⟩
    · rw [found_upTo_of_none hn, found_upTo_of_none hn']
      exact .found rfl he
    · cases (h.found_nil pos).symm.trans hs
  | succ count ih =>
    rcases (@h.agrees core text more pos position' depth ht hcl he).eq_none_or with
      ⟨hn, hn'⟩ | ⟨value, value', rest, more', stop, stop', hv, he', hs, hs'⟩
    · rw [found_upTo_of_none hn, found_upTo_of_none hn']
      exact .found rfl he
    · obtain ⟨hl, hr⟩ := h.takes ht hs
      dsimp only at hl hr
      obtain ⟨count', rfl⟩ := Nat.exists_eq_succ_of_ne_zero (by omega : count' ≠ 0)
      have ht' : text.isEmpty = false := by cases text <;> simp_all
      have hm : (text ++ more).isEmpty = false := by cases text <;> simp_all
      rw [found_upTo_of_some hs ht', found_upTo_of_some hs' hm]
      have ho := @ih count' rest more' stop stop' (by omega) (by omega) (by omega) (hr depth ▸ hcl) he'
      rcases ho.eq_none_or with
        ⟨hn, hn'⟩ | ⟨_, _, _, _, _, _, hvw, he'', hs, hs'⟩
      · rw [hn, hn']
        exact .failed
      · rw [hs, hs']
        exact .found (by rw [map_cons, map_cons, hv, hvw]) he''

theorem Steady.many (h : Steady size (least + 1) i i view first second) :
    Steady size 0 i i (List.map view) (Reading.many first) (Reading.many second) where
  takes ht hf := h.takes_upTo ht hf
  agrees ht hc he := h.agrees_upTo ht (Nat.le_refl _) (by simp) hc he

theorem Steady.separated {separator : Reading Unit} (hi : Steady size least i i view first second)
    (hs : Steady size (least' + 1) i i id separator separator) :
    Steady size least i i (List.map view) (Reading.separated first separator) (Reading.separated second separator) := by
  have ho : Steady size (least' + 1 + least) i i view (do separator; first) (do separator; second) :=
    hs.bind fun _ _ _ _ => hi.mono (Nat.sub_le _ _) (Nat.le_refl _)
  have hm := (ho.mono (Nat.le_refl _) (by omega : least + least' + 1 ≤ least' + 1 + least)).many
  change Steady size (least + 0) i i _ _ _
  refine hi.bind fun _ value value' hv => ?_
  change Steady (size - least) (0 + 0) i i _ _ _
  refine (hm.mono (Nat.sub_le _ _) (Nat.le_refl _)).bind fun _ others others' ho => steady_pure ?_
  rw [map_cons, map_cons, hv, ho]

/-! ## Steady readers of single tokens -/

private theorem isPlain_of_isSpace (h : isSpace c) : isPlain c := by
  have ha : spaces.all isPlain := by decide
  exact all_eq_true.1 ha c (mem_spaces h)

theorem drop_length_takeWhile (text : List Char) (p : Char → Bool) :
    text.drop (text.takeWhile p).length = text.dropWhile p := by
  induction text with
  | nil => rfl
  | cons c text ih =>
    rw [takeWhile_cons, dropWhile_cons]
    split
    · exact ih
    · rfl

theorem found_blanks (text : List Char) (pos : Nat) : (Predicate.blanks ⟨text, pos⟩).found =
    some ((), ⟨text.dropWhile isSpace, pos + (text.takeWhile isSpace).length⟩) := by
  rw [← drop_length_takeWhile]
  rfl

theorem steady_blanks : Steady size 0 i i id Predicate.blanks Predicate.blanks where
  takes {text pos value after} _ hf := by
    rw [found_blanks] at hf
    obtain ⟨-, rfl⟩ := Prod.mk.inj (Option.some.inj hf)
    refine ⟨(dropWhile_sublist _).length_le, fun depth => ?_⟩
    rw [closes_drop, drop_length_takeWhile]
    intro c hc
    rw [← prefix_iff_eq_take.1 ( takeWhile_prefix _)] at hc
    exact isPlain_of_isSpace (all_eq_true.1 all_takeWhile c hc)
  agrees {core text more pos position' depth} _ _ he := by
    rw [found_blanks, found_blanks, List.dropWhile_append]
    cases hr : text.dropWhile isSpace with
    | nil =>
      rw [he.core_eq]
      exact .found rfl he.again
    | cons c rest => exact .found rfl he

theorem found_takeFirst (length : List Char → Option Nat) (text : List Char) (pos : Nat) :
    (takeFirst length ⟨text, pos⟩).found =
      (length text).map fun count => (text.take count, ⟨text.drop count, pos + count⟩) := by
  unfold takeFirst
  cases length text <;> rfl

/-- A reader of a token is steady if the token closes the brackets that it should and its end is seen in a longer text
as well. -/
theorem steady_takeFirst {length : List Char → Option Nat}
    (ht : ∀ text count, length text = some count → count ≤ text.length ∧ least ≤ count ∧
      ∀ depth, closes .outside (depth + i) text = closes .outside (depth + j) (text.drop count))
    (ha : ∀ core text more depth, closes .outside (depth + i) text → Ends core more →
      length (text ++ more) = length text) :
    Steady size least i j id (takeFirst length) (takeFirst length) where
  takes {text pos value after} _ hf := by
    rw [found_takeFirst] at hf
    obtain ⟨count, hl, hp⟩ := Option.map_eq_some_iff.1 hf
    obtain ⟨-, rfl⟩ := Prod.mk.inj hp
    obtain ⟨hc, hls, hcl⟩ := ht text count hl
    exact ⟨by rw [length_drop]; omega, hcl⟩
  agrees {core text more pos position' depth} _ hcl he := by
    rw [found_takeFirst, found_takeFirst, ha core text more depth hcl he]
    cases hl : length text with
    | none => exact .failed
    | some count =>
      have hc := (ht text count hl).1
      rw [Option.map_some, Option.map_some, drop_append_of_le_length hc, take_append_of_le_length hc]
      exact .found rfl he

/-- So many characters are there, and none of them is a quote or a bracket. -/
def PlainTo (text : List Char) (count : Nat) : Prop :=
  count ≤ text.length ∧ ∀ c ∈ text.take count, isPlain c

theorem isPlain_of {p : Char → Bool} (hp : signs.all fun c => !p c) (h : p c) : isPlain c := by
  rw [isPlain, Bool.not_eq_true', contains_eq_mem, decide_eq_false_iff_not]
  intro hm
  have hc := all_eq_true.1 hp c hm
  rw [h] at hc
  cases hc

theorem PlainTo.add {first second : Nat} (hf : PlainTo text first) (hs : PlainTo (text.drop first) second) :
    PlainTo text (first + second) := by
  have hl := hs.1
  rw [length_drop] at hl
  refine ⟨by have := hf.1; omega, fun c hc => ?_⟩
  rw [take_add, mem_append] at hc
  exact hc.elim (hf.2 c) (hs.2 c)

theorem plainTo_takeWhile {p : Char → Bool} (hp : signs.all fun c => !p c) (text : List Char) :
    PlainTo text (text.takeWhile p).length := by
  refine ⟨(takeWhile_sublist p).length_le, fun c hc => ?_⟩
  rw [← prefix_iff_eq_take.1 ( takeWhile_prefix p)] at hc
  exact isPlain_of hp (all_eq_true.1 all_takeWhile c hc)

theorem plainTo_head (hc : isPlain c) (hh : text.head? = some c) : PlainTo text 1 := by
  obtain ⟨rest, rfl⟩ := head?_eq_some_iff.1 hh
  exact ⟨by simp, by simpa using hc⟩

/-- A reader of a token without quotes and brackets is steady if the end of the token is seen in a longer text. -/
theorem steady_takeFirst_plain {length : List Char → Option Nat}
    (ht : ∀ text count, length text = some count → PlainTo text count ∧ least ≤ count)
    (ha : ∀ core text more, Ends core more → length (text ++ more) = length text) :
    Steady size least i i id (takeFirst length) (takeFirst length) := by
  refine steady_takeFirst (fun text count hc => ?_) fun core text more _ _ he => ha core text more he
  obtain ⟨⟨hle, hp⟩, hl⟩ := ht text count hc
  exact ⟨hle, hl, fun depth => closes_drop hp _⟩

/-- Whether a character is no quote, no bracket and none with which a text starts that follows. -/
def isInner (c : Char) : Bool :=
  isPlain c && !edges.contains c

private theorem not_mem_edges_of_isInner (h : isInner c) : c ∉ edges := by
  simpa [isInner] using (Bool.and_eq_true_iff.1 h).2

theorem isPrefixOf_append {mark : List Char} (hm : mark.all isInner) (he : Ends core more) :
    mark.isPrefixOf (text ++ more) = mark.isPrefixOf text := by
  induction mark generalizing text with
  | nil => simp
  | cons c mark ih =>
    rw [all_cons, Bool.and_eq_true] at hm
    cases text with
    | nil =>
      cases more with
      | nil => rfl
      | cons first more =>
        have hne : c ≠ first := fun heq => not_mem_edges_of_isInner hm.1 (heq ▸ he.mem_edges rfl)
        simp [List.isPrefixOf, hne]
    | cons first text => simp [List.isPrefixOf, ih hm.2]

theorem plainTo_of_isPrefixOf {mark : List Char} (hm : mark.all isInner) (h : mark.isPrefixOf text) :
    PlainTo text mark.length := by
  obtain ⟨rest, rfl⟩ := isPrefixOf_iff_prefix.1 h
  refine ⟨by simp, fun c hc => ?_⟩
  rw [take_left] at hc
  exact (Bool.and_eq_true_iff.1 (all_eq_true.1 hm c hc)).1

theorem steady_literal (hm : mark.toList.all isInner) :
    Steady size mark.length i i id (literal mark) (literal mark) := by
  refine (steady_takeFirst_plain (fun text count hc => ?_) fun core text more he => ?_).map fun _ => ()
  · split at hc
    next hs =>
      obtain rfl := Option.some.inj hc
      rw [← String.length_toList]
      exact ⟨plainTo_of_isPrefixOf hm hs, Nat.le_refl _⟩
    next => cases hc
  · rw [isPrefixOf_append hm he]

private theorem found_literal_singleton (hm : mark.toList = [c]) (text : List Char) (pos : Nat) :
    (literal mark ⟨text, pos⟩).found =
      if text.head? = some c then some ((), ⟨text.tail, pos + 1⟩) else none := by
  have hl : mark.length = 1 := by rw [← String.length_toList, hm]; rfl
  unfold literal
  rw [found_bind, found_takeFirst, hm, hl]
  cases text with
  | nil => rfl
  | cons first text =>
    by_cases heq : first = c
    · subst heq
      simp [List.isPrefixOf]
      rfl
    · simp [List.isPrefixOf, heq, Ne.symm heq]

/-- Reading one character is steady if it opens or closes what it should and is not looked for at the end. -/
private theorem steady_singleton (hm : mark.toList = [c])
    (ht : ∀ depth rest, closes .outside (depth + i) (c :: rest) = closes .outside (depth + j) rest)
    (ha : c ∉ edges ∨ ∀ depth, closes .outside (depth + i) [] = false) :
    Steady size 1 i j id (literal mark) (literal mark) where
  takes {text pos value after} _ hf := by
    rw [found_literal_singleton hm] at hf
    cases text with
    | nil => cases hf
    | cons first text =>
      split at hf
      next heq =>
        obtain rfl := Option.some.inj heq
        obtain ⟨-, rfl⟩ := Prod.mk.inj (Option.some.inj hf)
        exact ⟨Nat.le_refl _, fun depth => ht depth text⟩
      next => cases hf
  agrees {core text more pos position' depth} _ hc he := by
    rw [found_literal_singleton hm, found_literal_singleton hm]
    cases text with
    | nil =>
      rcases ha with hed | hd
      · have hne : more.head? ≠ some c := fun hh => hed (he.mem_edges hh)
        rw [nil_append, if_neg (by simp), if_neg hne]
        exact .failed
      · rw [hd depth] at hc
        cases hc
    | cons first text =>
      rw [cons_append, head?_cons, head?_cons]
      split
      · exact .found rfl he
      · exact .failed

theorem steady_open (hm : mark.toList = [c]) (hc : c ∈ ['(', '[']) :
    Steady size 1 i (i + 1) id (literal mark) (literal mark) := by
  refine steady_singleton hm (fun depth rest => ?_) (.inl ?_)
  all_goals simp only [mem_cons, not_mem_nil, or_false] at hc; rcases hc with rfl | rfl
  · rfl
  · rfl
  · decide
  · decide

theorem steady_close (hm : mark.toList = [c]) (hc : c ∈ [')', ']']) :
    Steady size 1 (i + 1) i id (literal mark) (literal mark) := by
  refine steady_singleton hm (fun depth rest => ?_) (.inr fun depth => by simp [closes])
  simp only [mem_cons, not_mem_nil, or_false] at hc
  rcases hc with rfl | rfl <;> simp [closes, ← Nat.add_assoc]

/-- Inside of brackets a comma is looked for only before the end. -/
theorem steady_comma : Steady size 1 (i + 1) (i + 1) id (literal ",") (literal ",") :=
  steady_singleton rfl (fun _ _ => rfl) (.inr fun depth => by simp [closes])

end Reading

end TreeLint
