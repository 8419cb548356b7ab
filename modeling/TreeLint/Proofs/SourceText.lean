import TreeLint.Proofs.Utf8
import TreeLint.Source

/-!
# Positions in a source

In a source that was read from bytes or written from a string, the two kinds of position agree.

* `Source.byteAt_eq`: the offset of a character is the number of bytes before it;
* `Source.slice_byteAt`: the bytes between two characters, read as text, are the characters between them.
-/

namespace TreeLint

open List

namespace Source

variable {src : Source} {first last : Nat}

/-- The bytes and the tables of a source belong to its text. -/
structure Encoded (source : Source) : Prop where
  bytes_eq : source.bytes = encode source.text
  glyphs_eq : source.glyphs = source.text.toArray
  offsets_eq : source.offsets = (0 :: offsetsFrom 0 source.text).toArray

/-- Moreover, the text is read back from the bytes. -/
structure Coherent (source : Source) : Prop extends Encoded source where
  canonical : Canonical source.text

theorem encoded_ofText (text : Text) : (ofText text).Encoded :=
  ⟨rfl, rfl, rfl⟩

theorem coherent_ofBytes (bytes : List UInt8) : (ofBytes bytes).Coherent :=
  ⟨⟨(encode_decode bytes).symm, rfl, rfl⟩, canonical_decode bytes⟩

theorem coherent_ofText (s : String) : (ofText (Text.ofString s)).Coherent :=
  ⟨encoded_ofText _, canonical_ofString s⟩

theorem coherent_of_read (h : (∃ bytes, src = .ofBytes bytes) ∨ ∃ text, src = .ofText (Text.ofString text)) :
    src.Coherent := by
  rcases h with ⟨bytes, rfl⟩ | ⟨text, rfl⟩
  · exact coherent_ofBytes bytes
  · exact coherent_ofText text

private theorem getElem?_offsetsFrom (start : Nat) (text : Text) {i : Nat} (hi : i ≤ text.length) :
    (start :: offsetsFrom start text)[i]? = some (start + (encode (text.take i)).length) := by
  induction text generalizing start i with
  | nil =>
    obtain rfl : i = 0 := by simpa using hi
    rfl
  | cons g text ih =>
    cases i with
    | zero => rfl
    | succ i =>
      rw [getElem?_cons_succ, offsetsFrom, ih (start + g.width) (Nat.le_of_succ_le_succ hi), take_succ_cons,
        encode_cons, length_append, Nat.add_assoc]
      rfl

theorem Encoded.byteAt_eq (h : src.Encoded) (hi : first ≤ src.text.length) :
    src.byteAt first = (encode (src.text.take first)).length := by
  rw [byteAt, h.offsets_eq, Array.getD_eq_getD_getElem?, getElem?_toArray, getElem?_offsetsFrom 0 _ hi,
    Option.getD_some, Nat.zero_add]

theorem Encoded.byteAt_length (h : src.Encoded) : src.byteAt src.text.length = src.size := by
  rw [h.byteAt_eq (Nat.le_refl _), take_length, size, h.bytes_eq]

theorem Encoded.byteAt_zero (h : src.Encoded) : src.byteAt 0 = 0 := by
  rw [h.byteAt_eq (Nat.zero_le _), take_zero]
  rfl

/-- The text up to a character, cut at an earlier one. -/
private theorem take_eq_append (text : Text) (hle : first ≤ last) :
    text.take last = text.take first ++ (text.drop first).take (last - first) := by
  rw [← take_add, Nat.add_sub_cancel' hle]

theorem Encoded.byteAt_eq_add (h : src.Encoded) (hle : first ≤ last) (hl : last ≤ src.text.length) :
    src.byteAt last =
      src.byteAt first + (encode ((src.text.drop first).take (last - first))).length := by
  rw [h.byteAt_eq hl, h.byteAt_eq (Nat.le_trans hle hl), take_eq_append src.text hle, encode_append, length_append]

private theorem length_pos_encode {text : Text} (h : text ≠ []) : 0 < (encode text).length := by
  cases text with
  | nil => exact absurd rfl h
  | cons g text =>
    rw [encode_cons, length_append]
    exact Nat.add_pos_left g.width_pos _

theorem Encoded.byteAt_lt (h : src.Encoded) (hlt : first < last) (hl : last ≤ src.text.length) :
    src.byteAt first < src.byteAt last := by
  rw [h.byteAt_eq_add (Nat.le_of_lt hlt) hl]
  refine Nat.lt_add_of_pos_right (length_pos_encode fun hn => ?_)
  have := congrArg List.length hn
  simp at this
  omega

theorem Encoded.byteAt_le (h : src.Encoded) (hle : first ≤ last) (hl : last ≤ src.text.length) :
    src.byteAt first ≤ src.byteAt last := by
  rw [h.byteAt_eq_add hle hl]
  exact Nat.le_add_right _ _

/-- The bytes between two characters, read as text, are the characters between them. -/
theorem Coherent.slice_byteAt (h : src.Coherent) (hle : first ≤ last) (hl : last ≤ src.text.length) :
    src.slice (src.byteAt first) (src.byteAt last) = (src.text.drop first).take (last - first) := by
  have hs := h.byteAt_le hl (Nat.le_refl _)
  rw [h.byteAt_length] at hs
  have hf := h.byteAt_le hle hl
  have hc : ∀ {offset : Nat}, offset ≤ src.size → resolveCut src.size offset = offset := by
    intro offset ho
    simp only [resolveCut]
    omega
  have hb : src.bytes = encode (src.text.take first) ++
      (encode ((src.text.drop first).take (last - first)) ++ encode (src.text.drop last)) := by
    rw [h.bytes_eq, ← append_assoc, ← encode_append, ← take_eq_append src.text hle, ← encode_append,
      take_append_drop]
  have hln : src.byteAt last - src.byteAt first =
      (encode ((src.text.drop first).take (last - first))).length := by
    rw [h.byteAt_eq_add hle hl]
    omega
  simp only [slice]
  rw [hc (Nat.le_trans hf hs), hc hs, hln, h.byteAt_eq (Nat.le_trans hle hl), hb, drop_left, take_left]
  exact h.canonical.infix first (last - first)

end Source

end TreeLint
