import Mathlib.Order.Interval.Finset.Nat
import TreeLint.Proofs.TokenTiling

/-!
# Bytes, characters and lines of a source

The tables of a source list increasing offsets, and an offset is looked up by counting the entries up to it. An offset
falls into one character (`Source.FallsInto`), and a table is split there: entries before are at most the offset, and
entries after are beyond it (`Lined.countUpTo_eq`).

* `Lined.charOffset_eq`: the character that is looked up is the one into which the offset falls;
* `Lined.lineColumn_eq`: line and column are those that are counted over the characters before;
* `Source.views_agree`: bytes, characters and lines tell the same about a source.
-/

namespace TreeLint

open List

/-! ## Tables of offsets -/

section Tables

variable {start offset : Nat} {text : Text}

private theorem length_encode_cons (g : Glyph) : (encode (g :: text)).length = g.width + (encode text).length := by
  rw [encode_cons, length_append]
  rfl

private theorem offsetsFrom_append (start : Nat) (text more : Text) :
    offsetsFrom start (text ++ more) = offsetsFrom start text ++ offsetsFrom (start + (encode text).length) more := by
  induction text generalizing start with
  | nil => rfl
  | cons g text ih =>
    rw [cons_append, offsetsFrom, ih, offsetsFrom, length_encode_cons, ← Nat.add_assoc, cons_append]

private theorem lineStartsFrom_append (start : Nat) (text more : Text) : lineStartsFrom start (text ++ more) =
      lineStartsFrom start text ++ lineStartsFrom (start + (encode text).length) more := by
  induction text generalizing start with
  | nil => rfl
  | cons g text ih =>
    rw [cons_append, lineStartsFrom, ih, lineStartsFrom, length_encode_cons, ← Nat.add_assoc]
    split <;> rfl

private theorem length_offsetsFrom (start : Nat) (text : Text) : (offsetsFrom start text).length = text.length := by
  induction text generalizing start with
  | nil => rfl
  | cons g text ih => rw [offsetsFrom, length_cons, ih, length_cons]

private theorem lineStartsFrom_sublist (start : Nat) (text : Text) :
    List.Sublist (lineStartsFrom start text) (offsetsFrom start text) := by
  induction text generalizing start with
  | nil => exact .slnil
  | cons g text ih =>
    rw [lineStartsFrom, offsetsFrom]
    split
    · exact (ih _).cons_cons _
    · exact (ih _).cons _

private theorem length_lineStartsFrom (start : Nat) (text : Text) :
    (lineStartsFrom start text).length = text.countP (·.is '\n') := by
  induction text generalizing start with
  | nil => rfl
  | cons g text ih =>
    rw [lineStartsFrom, countP_cons]
    split
    · rw [length_cons, ih]
    · exact ih _

/-- Offsets lie behind the first character and not beyond the text. -/
private theorem offsetsFrom_bounds (h : offset ∈ offsetsFrom start text) :
    start + (encode (text.take 1)).length ≤ offset ∧ offset ≤ start + (encode text).length := by
  induction text generalizing start with
  | nil => cases h
  | cons g text ih =>
    rw [take_succ_cons, take_zero, length_encode_cons, length_encode_cons, encode, flatMap_nil, length_nil]
    rcases mem_cons.1 h with rfl | h
    · omega
    · have := ih h
      omega

private theorem pairwise_offsetsFrom (start : Nat) (text : Text) : (start :: offsetsFrom start text).Pairwise
    (· < ·) := by
  induction text generalizing start with
  | nil => exact pairwise_singleton ..
  | cons g text ih =>
    have hp := g.width_pos
    refine pairwise_cons.2 ⟨fun offset ho => ?_, ih _⟩
    rcases mem_cons.1 ho with rfl | ho
    · omega
    · have := (offsetsFrom_bounds ho).1
      omega

private theorem exists_newline_of_mem (h : offset ∈ lineStartsFrom start text) :
    ∃ before after, encode text = before ++ 10 :: after ∧ offset = start + before.length + 1 := by
  induction text generalizing start with
  | nil => cases h
  | cons g text ih =>
    have hl : offset ∈ lineStartsFrom (start + g.width) text →
        ∃ before after, encode (g :: text) = before ++ 10 :: after ∧ offset = start + before.length + 1 := by
      intro ho
      obtain ⟨before, after, ht, rfl⟩ := ih ho
      refine ⟨g.bytes ++ before, after, by rw [encode_cons, ht, append_assoc], ?_⟩
      rw [length_append, Glyph.width]
      omega
    rw [lineStartsFrom] at h
    split at h
    next hn =>
      rcases mem_cons.1 h with rfl | h
      · obtain rfl : g = .scalar '\n' := beq_iff_eq.1 hn
        exact ⟨[], encode text, rfl, rfl⟩
      · exact hl h
    · exact hl h

private theorem resolveIndex?_of_lt {size pos : Nat} (h : pos < size) :
    resolveIndex? size pos = some pos := by
  have hp : (if (pos : Int) < 0 then (pos : Int) + size else pos) = pos := if_neg (by omega)
  simp [resolveIndex?, hp, h]

theorem placeAfter_append (line column : Nat) (text more : Text) : placeAfter line column (text ++ more) =
      placeAfter (placeAfter line column text).1 (placeAfter line column text).2 more := by
  induction text generalizing line column with
  | nil => rfl
  | cons g text ih =>
    rw [cons_append, placeAfter, placeAfter]
    split <;> exact ih ..

end Tables

namespace Source

variable {source : Source} {offset pos : Nat}

/-- The table of lines belongs to the text too. -/
structure Lined (source : Source) : Prop extends Encoded source where
  lineStarts_eq : source.lineStarts = (0 :: lineStartsFrom 0 source.text).toArray

theorem lined_of_read (h : (∃ bytes, source = .ofBytes bytes) ∨ ∃ text, source = .ofText text) : source.Lined := by
  rcases h with ⟨bytes, rfl⟩ | ⟨text, rfl⟩
  · exact ⟨(coherent_ofBytes bytes).toEncoded, rfl⟩
  · exact ⟨encoded_ofText text, rfl⟩

/-- Where a line begins, counted from zero; another one would begin behind the end. -/
def lineStart (source : Source) (line : Nat) : Nat :=
  source.lineStarts.getD line (source.size + 1)

private theorem getD_lineStarts {line : Nat} (h : line < source.lineStarts.size) :
    source.lineStarts.getD line 0 = source.lineStart line := by
  rw [lineStart, Array.getD_eq_getD_getElem?, Array.getD_eq_getD_getElem?, Array.getElem?_eq_getElem h]
  rfl

/-- An offset falls into the character at a position, or behind the last one. -/
structure FallsInto (source : Source) (offset position : Nat) : Prop where
  le_length : position ≤ source.text.length
  le : source.byteAt position ≤ offset
  lt : position < source.text.length → offset < source.byteAt (position + 1)

namespace Lined

variable (h : source.Lined)

include h

/-! ## The character at an offset -/

theorem exists_fallsInto (offset : Nat) : ∃ pos, source.FallsInto offset pos := by
  refine ⟨Nat.findGreatest (source.byteAt · ≤ offset) source.text.length, Nat.findGreatest_le _, ?_, fun hlt => ?_⟩
  · exact Nat.findGreatest_spec (P := (source.byteAt · ≤ offset)) (Nat.zero_le _) (by simp [h.byteAt_zero])
  · exact Nat.lt_of_not_le (Nat.findGreatest_is_greatest (P := (source.byteAt · ≤ offset)) (Nat.lt_succ_self _) hlt)

theorem fallsInto_byteAt (hp : pos ≤ source.text.length) : source.FallsInto (source.byteAt pos) pos :=
  ⟨hp, Nat.le_refl _, fun hlt => h.byteAt_lt (Nat.lt_succ_self _) hlt⟩

theorem byteAt_le_size (hp : pos ≤ source.text.length) : source.byteAt pos ≤ source.size :=
  h.byteAt_length ▸ h.byteAt_le hp (Nat.le_refl _)

/-- Where every character is one byte, the two kinds of position are one. -/
private theorem byteAt_eq_self (hp : source.isPlain) (hpo : pos ≤ source.text.length) :
    source.byteAt pos = pos := by
  have hs : source.byteAt source.text.length = source.text.length := by
    rw [h.byteAt_length, beq_iff_eq.1 hp, length, h.glyphs_eq, size_toArray]
  have hg : ∀ first count, first + count ≤ source.text.length →
      source.byteAt first + count ≤ source.byteAt (first + count) := by
    intro first count
    induction count with
    | zero => exact fun _ => Nat.le_refl _
    | succ count ih =>
      intro hle
      have hc := ih (by omega)
      have hn : source.byteAt (first + count) < source.byteAt (first + (count + 1)) := h.byteAt_lt (by omega) hle
      omega
  have hf := hg 0 pos (by omega)
  have hb := hg pos (source.text.length - pos) (by omega)
  rw [Nat.add_sub_cancel' hpo, hs] at hb
  rw [h.byteAt_zero, Nat.zero_add] at hf
  omega

section FallsInto

variable (ho : source.FallsInto offset pos)

include ho

theorem byteAt_le_iff {other : Nat} (hot : other ≤ source.text.length) :
    source.byteAt other ≤ offset ↔ other ≤ pos := by
  constructor
  · intro hle
    by_contra hlt
    have hn : source.byteAt (pos + 1) ≤ source.byteAt other := h.byteAt_le (Nat.lt_of_not_le hlt) hot
    have := ho.lt (by omega)
    omega
  · exact fun hle => Nat.le_trans (h.byteAt_le hle ho.le_length) ho.le

/-- Characters behind the one into which an offset falls begin after it. -/
private theorem lt_of_mem {entry : Nat}
    (he : entry ∈ offsetsFrom (source.byteAt pos) (source.text.drop pos)) : offset < entry := by
  have hlt : pos < source.text.length := by
    by_contra hge
    rw [drop_eq_nil_of_le (Nat.le_of_not_lt hge)] at he
    cases he
  have hn := h.byteAt_eq_add (Nat.le_add_right pos 1) hlt
  rw [Nat.add_sub_cancel_left] at hn
  have hl := (offsetsFrom_bounds he).1
  have := ho.lt hlt
  omega

/-- Entries of a table from before a character are counted at an offset in it, and those from behind are not. -/
theorem countUpTo_eq {before after : List Nat} (hb : List.Sublist before (offsetsFrom 0 (source.text.take pos)))
    (ha : List.Sublist after (offsetsFrom (source.byteAt pos) (source.text.drop pos))) :
    countUpTo (0 :: (before ++ after)).toArray offset = before.length + 1 := by
  have hle := ho.le
  rw [countUpTo, countP_toArray, countP_cons_of_pos (by simp), countP_append,
    countP_eq_length.2, countP_eq_zero.2, Nat.add_zero]
  · intro entry he
    have := h.lt_of_mem ho (ha.subset he)
    simp only [Int.ofNat_eq_natCast, Int.ofNat_le, decide_eq_true_eq]
    omega
  · intro entry he
    have hu := (offsetsFrom_bounds (hb.subset he)).2
    rw [Nat.zero_add, ← h.byteAt_eq ho.le_length] at hu
    simp only [Int.ofNat_eq_natCast, Int.ofNat_le, decide_eq_true_eq]
    omega

/-- The character that is looked up at an offset is the one into which the offset falls. -/
theorem charOffset_eq (hs : offset ≤ source.size) : source.charOffset offset = pos := by
  unfold charOffset
  split
  next hp =>
    have hle := ho.le
    have he := h.byteAt_length
    rw [h.byteAt_eq_self hp ho.le_length] at hle
    rw [h.byteAt_eq_self hp (Nat.le_refl _)] at he
    rcases Nat.lt_or_eq_of_le ho.le_length with hi | hl
    · have hlt := ho.lt hi
      rw [h.byteAt_eq_self hp hi] at hlt
      omega
    · omega
  · rw [h.offsets_eq, ← take_append_drop pos source.text, offsetsFrom_append, Nat.zero_add,
      ← h.byteAt_eq ho.le_length, h.countUpTo_eq ho (List.Sublist.refl _) (List.Sublist.refl _),
      length_offsetsFrom, length_take_of_le ho.le_length]
    simp

end FallsInto

/-! ## Lines -/

/-- Counting over the characters before a position gives the number of newlines there, and how far it is from the start
of the last line. -/
private theorem exists_lineStart (hp : pos ≤ source.text.length) :
    ∃ first ≤ pos, (0 :: lineStartsFrom 0 (source.text.take pos)).getLast? = some (source.byteAt first) ∧
      placeAfter 1 1 (source.text.take pos) =
        ((lineStartsFrom 0 (source.text.take pos)).length + 1, pos - first + 1) := by
  induction pos with
  | zero => exact ⟨0, Nat.le_refl _, by rw [h.byteAt_zero]; rfl, rfl⟩
  | succ pos ih =>
    obtain ⟨first, hle, hl, hpl⟩ := ih (Nat.le_of_succ_le hp)
    have hb := h.byteAt_eq hp
    rw [take_add_one, getElem?_eq_getElem hp, Option.toList_some] at hb ⊢
    rw [lineStartsFrom_append, placeAfter_append, hpl, Nat.zero_add, lineStartsFrom, lineStartsFrom, placeAfter]
    rw [encode_append, length_append] at hb
    split
    · refine ⟨pos + 1, Nat.le_refl _, ?_, ?_⟩
      · rw [hb, ← cons_append, getLast?_append]
        simp [encode, Glyph.width]
      · simp [placeAfter]
    · refine ⟨first, by omega, by simpa using hl, ?_⟩
      rw [placeAfter, append_nil]
      congr 1
      omega

/-- What the table of lines tells about an offset that falls into a character: how many lines begin up to it, where the
last of them begins, and that the next one begins behind it. -/
theorem exists_line (ho : source.FallsInto offset pos) (hs : offset ≤ source.size) :
    ∃ line first, line < source.lineStarts.size ∧ countUpTo source.lineStarts offset = line + 1 ∧ first ≤ pos ∧
      source.lineStart line = source.byteAt first ∧ offset < source.lineStart (line + 1) ∧
      placeAfter 1 1 (source.text.take pos) = (line + 1, pos - first + 1) := by
  obtain ⟨first, hle, hl, hp⟩ := h.exists_lineStart ho.le_length
  have ht : source.lineStarts = ((0 :: lineStartsFrom 0 (source.text.take pos)) ++
      lineStartsFrom (source.byteAt pos) (source.text.drop pos)).toArray := by
    rw [h.lineStarts_eq, h.byteAt_eq ho.le_length, ← Nat.zero_add (encode _).length, cons_append,
      ← lineStartsFrom_append, take_append_drop]
  rw [getLast?_eq_getElem?, length_cons, Nat.add_sub_cancel] at hl
  refine ⟨_, first, ?_, ?_, hle, ?_, ?_, hp⟩
  · simp only [ht, size_toArray, length_append, length_cons]
    omega
  · rw [ht, cons_append, h.countUpTo_eq ho (lineStartsFrom_sublist ..) (lineStartsFrom_sublist ..)]
  · rw [lineStart, ht, Array.getD_eq_getD_getElem?, getElem?_toArray, getElem?_append_left (by simp), hl]
    rfl
  · rw [lineStart, ht, Array.getD_eq_getD_getElem?, getElem?_toArray, getElem?_append_right (by simp),
      length_cons, Nat.sub_self]
    cases hn : (lineStartsFrom (source.byteAt pos) (source.text.drop pos))[0]? with
    | none => exact Nat.lt_succ_of_le hs
    | some next => exact h.lt_of_mem ho ((lineStartsFrom_sublist ..).subset (mem_of_getElem? hn))

theorem lineColumn_eq (ho : source.FallsInto offset pos) (hs : offset ≤ source.size) {line column : Nat}
    (hp : placeAfter 1 1 (source.text.take pos) = (line, column)) :
    source.lineColumn offset = ((line : Int), (column : Int)) := by
  obtain ⟨index, first, hi, hc, hle, hst, -, hp'⟩ := h.exists_line ho hs
  have hf := Nat.le_trans hle ho.le_length
  have hl : Int.ofNat (index + 1) - 1 = index := by simp
  simp only [hp', Prod.mk.injEq] at hp
  simp only [lineColumn, hc, hl, resolveIndex?_of_lt hi, getD_lineStarts hi, hst,
    h.charOffset_eq ho hs, h.charOffset_eq (h.fallsInto_byteAt hf) (h.byteAt_le_size hf),
    Prod.mk.injEq]
  omega

theorem size_lineStarts : source.lineStarts.size = source.text.countP (·.is '\n') + 1 := by
  rw [h.lineStarts_eq, size_toArray, length_cons, length_lineStartsFrom]

private theorem byteOffset?_eq (hp : pos ≤ source.text.length) :
    source.byteOffset? pos = some (source.byteAt pos : Int) := by
  unfold byteOffset?
  split
  next hpl => rw [h.byteAt_eq_self hpl hp]
  · have hi : pos < source.offsets.size := by
      rw [h.offsets_eq, size_toArray, length_cons, length_offsetsFrom]
      omega
    rw [resolveIndex?_of_lt hi, Option.map_some, byteAt, Array.getD_eq_getD_getElem?,
      Array.getD_eq_getD_getElem?, Array.getElem?_eq_getElem hi]
    rfl

/-- The characters between the start of one and an offset. -/
private theorem filter_between (ho : source.FallsInto offset pos) {first : Nat} (hf : first ≤ pos) :
    ((Finset.range source.text.length).filter fun other =>
      source.byteAt first ≤ source.byteAt other ∧ source.byteAt (other + 1) ≤ offset) =
        Finset.Ico first pos := by
  have hl := ho.le_length
  ext other
  rw [Finset.mem_filter, Finset.mem_range, Finset.mem_Ico]
  constructor
  · rintro ⟨hlt, hlw, hu⟩
    rw [h.byteAt_le_iff ho hlt] at hu
    rw [h.byteAt_le_iff (h.fallsInto_byteAt (Nat.le_of_lt hlt)) (by omega)] at hlw
    exact ⟨hlw, hu⟩
  · rintro ⟨hlw, hu⟩
    have hlt := Nat.lt_of_lt_of_le hu hl
    exact ⟨hlt, h.byteAt_le hlw (Nat.le_of_lt hlt), (h.byteAt_le_iff ho hlt).2 hu⟩

end Lined

/-- Lines lie side by side, from the start of a source to its end. Each reaches up to the newline before the next one,
and the last one up to the end. -/
structure Lines (source : Source) (count : Nat) (start : Nat → Nat) : Prop where
  zero : start 0 = 0
  lt : ∀ line other, line < other → other ≤ count → start line < start other
  stop : start count = source.size + 1
  span : ∀ line < count, source.lineSpan? (line + 1) = some ((start line : Int), (start (line + 1) : Int) - 1)
  newline : ∀ line, line + 1 < count → source.bytes[start (line + 1) - 1]? = some 10

theorem Lined.lines (h : source.Lined) : Lines source (source.text.countP (·.is '\n') + 1) source.lineStart := by
  have hg : ∀ line, source.lineStart line = (0 :: lineStartsFrom 0 source.text)[line]?.getD (source.size + 1) := by
    intro line
    rw [lineStart, h.lineStarts_eq, Array.getD_eq_getD_getElem?, getElem?_toArray]
  have he : source.lineStart source.lineStarts.size = source.size + 1 := by
    rw [lineStart, Array.getD_eq_getD_getElem?, Array.getElem?_eq_none (Nat.le_refl _)]
    rfl
  have hs : (0 :: lineStartsFrom 0 source.text).Pairwise (· < ·) :=
    (pairwise_offsetsFrom 0 source.text).sublist ((lineStartsFrom_sublist ..).cons_cons 0)
  have hl : (0 :: lineStartsFrom 0 source.text).length = source.lineStarts.size := by rw [h.lineStarts_eq]; rfl
  rw [← h.size_lineStarts]
  refine ⟨by rw [hg]; rfl, fun line other hlt hot => ?_, he, fun line hln => ?_, fun line hln => ?_⟩
  · have hf := getElem?_eq_getElem (l := 0 :: lineStartsFrom 0 source.text) (i := line) (by omega)
    rw [hg line, hf, Option.getD_some]
    rcases Nat.lt_or_eq_of_le hot with hi | rfl
    · rw [hg, getElem?_eq_getElem (by omega)]
      exact pairwise_iff_getElem.1 hs _ _ _ _ hlt
    · rw [he, Nat.lt_succ_iff]
      rcases mem_cons.1 (mem_of_getElem? hf) with hz | hm
      · omega
      · have := (offsetsFrom_bounds ((lineStartsFrom_sublist ..).subset hm)).2
        rw [size, h.bytes_eq]
        omega
  · simp only [lineSpan?, add_sub_cancel_right, resolveIndex?_of_lt hln, Option.bind_eq_bind, Option.bind_some,
      getD_lineStarts hln]
    rcases Nat.lt_or_eq_of_le (Nat.succ_le_of_lt hln) with hls | hls
    · have hind : resolveIndex? source.lineStarts.size ((line : Int) + 1) = some (line + 1) :=
        resolveIndex?_of_lt hls
      rw [if_pos (by omega), hind, Option.map_some, getD_lineStarts hls]
      rfl
    · rw [if_neg (by omega), show line + 1 = source.lineStarts.size from hls, he]
      simp
  · have hn := getElem?_eq_getElem (l := lineStartsFrom 0 source.text) (i := line) (by rw [length_cons] at hl; omega)
    obtain ⟨before, after, hb, heq⟩ := exists_newline_of_mem (mem_of_getElem? hn)
    rw [hg, getElem?_cons_succ, hn, Option.getD_some, heq, h.bytes_eq, hb, Nat.zero_add,
      Nat.add_sub_cancel, getElem?_append_right (Nat.le_refl _), Nat.sub_self]
    rfl

/-- Bytes, characters and lines tell the same about a source. Offsets of characters increase up to the end, and an
offset leads back to the character into which it falls; cutting the bytes between characters gives the characters
between them. Lines lie side by side, every offset up to the end is in one of them, and its column counts the characters
between. -/
theorem views_agree (hsource : (∃ bytes, source = .ofBytes bytes) ∨ ∃ text, source = .ofText (Text.ofString text)) :
    (∀ position ≤ source.length, source.byteOffset? position = some (source.byteAt position : Int) ∧
      source.charOffset (source.byteAt position) = position) ∧
    (∀ first last, first < last → last ≤ source.length → source.byteAt first < source.byteAt last) ∧
    source.byteAt source.length = source.size ∧
    (∀ offset < source.size, ∃ position < source.length, source.charOffset offset = position ∧
      source.byteAt position ≤ offset ∧ offset < source.byteAt (position + 1)) ∧
    (∀ first last, first ≤ last → last ≤ source.length →
      source.slice (source.byteAt first) (source.byteAt last) = (source.text.drop first).take (last - first)) ∧
    ∃ start, Lines source (source.text.countP (·.is '\n') + 1) start ∧ ∀ offset ≤ source.size,
      ∃ line ≤ source.text.countP (·.is '\n'), start line ≤ offset ∧ offset < start (line + 1) ∧
        source.lineColumn offset = ((line + 1 : Int), (((Finset.range source.length).filter fun position =>
          start line ≤ source.byteAt position ∧ source.byteAt (position + 1) ≤ offset).card + 1 : Int)) := by
  have h : source.Lined := lined_of_read (hsource.imp_right (Exists.elim · fun text heq => ⟨_, heq⟩))
  have hl : source.length = source.text.length := by rw [length, h.glyphs_eq, size_toArray]
  rw [hl]
  refine ⟨fun position hp => ⟨h.byteOffset?_eq hp, ?_⟩, fun first last => h.byteAt_lt, h.byteAt_length,
    fun offset ho => ?_, fun first last => (coherent_of_read hsource).slice_byteAt, source.lineStart, h.lines,
    fun offset ho => ?_⟩
  · exact h.charOffset_eq (h.fallsInto_byteAt hp) (h.byteAt_le_size hp)
  · obtain ⟨position, hf⟩ := h.exists_fallsInto offset
    have hlt : position < source.text.length := by
      refine Nat.lt_of_le_of_ne hf.le_length fun heq => ?_
      have := hf.le
      rw [heq, h.byteAt_length] at this
      omega
    exact ⟨position, hlt, h.charOffset_eq hf (Nat.le_of_lt ho), hf.le, hf.lt hlt⟩
  · obtain ⟨position, hf⟩ := h.exists_fallsInto offset
    obtain ⟨line, first, hln, -, hle, hs, hn, hpl⟩ := h.exists_line hf ho
    rw [h.size_lineStarts] at hln
    refine ⟨line, Nat.le_of_lt_succ hln, ?_, hn, ?_⟩
    · rw [hs]
      exact Nat.le_trans (h.byteAt_le hle hf.le_length) hf.le
    · rw [h.lineColumn_eq hf ho hpl, hs, h.filter_between hf hle, Nat.card_Ico]
      rfl

theorem views_agree_of_mixed : (ofBytes [0xC3, 0xA9, 10, 0xE2, 0x82, 65]).lineColumn 4 = (2, 2) ∧
    ∃ position < (ofBytes [0xC3, 0xA9, 10, 0xE2, 0x82, 65]).length,
      (ofBytes [0xC3, 0xA9, 10, 0xE2, 0x82, 65]).charOffset 1 = position ∧
        (ofBytes [0xC3, 0xA9, 10, 0xE2, 0x82, 65]).byteAt position ≤ 1 ∧
        1 < (ofBytes [0xC3, 0xA9, 10, 0xE2, 0x82, 65]).byteAt (position + 1) :=
  ⟨by decide +kernel, (views_agree (.inl ⟨_, rfl⟩)).2.2.2.1 1 (by decide +kernel)⟩

end Source

end TreeLint
