import Mathlib.Data.List.Basic
import TreeLint.Text.Glyph

/-!
# Bytes and text

* `eq_bytesOf_of_sequenceAt` and `sequenceAt_bytesOf`: well-formed sequences are those that characters are written as;
* `encode_decode`: no byte is lost when bytes are read as text;
* `Canonical`: a text that is read back from its bytes. Every part of such a text is of this kind (`Canonical.infix`),
  also when the cut falls inside a run of bytes that form no character.
-/

namespace TreeLint

open List

open Glyph (bytesOf)

/-! ## Well-formed sequences -/

private theorem toNat_ofNat_of_lt {n : Nat} (h : n < 256) : (UInt8.ofNat n).toNat = n := by
  rw [UInt8.toNat_ofNat']
  omega

private theorem toNat_tail (n : Nat) : (UInt8.ofNat (0x80 + n % 64)).toNat = 0x80 + n % 64 :=
  toNat_ofNat_of_lt (by omega)

private theorem ofNat_eq {n : Nat} {b : UInt8} (h : n = b.toNat) : UInt8.ofNat n = b := by
  rw [h, UInt8.ofNat_toNat]

/-- A character is read back from its bytes, whatever follows. -/
theorem sequenceAt_bytesOf {n : Nat} (hn : n.isValidChar) {lead : UInt8} {tail : List UInt8}
    (hb : bytesOf n = lead :: tail) (more : List UInt8) :
    sequenceAt lead.toNat (tail ++ more) = some (n, tail.length) := by
  have hv : n < 0xD800 ∨ 0xDFFF < n ∧ n < 0x110000 := hn
  unfold Glyph.bytesOf at hb
  split at hb
  · obtain ⟨rfl, rfl⟩ := List.cons.inj hb
    rw [toNat_ofNat_of_lt (by omega), sequenceAt]
    simp only [if_pos ‹n < 0x80›, length_nil]
  · split at hb
    · obtain ⟨rfl, rfl⟩ := List.cons.inj hb
      rw [toNat_ofNat_of_lt (by omega), sequenceAt]
      simp only [cons_append, getElem?_cons_zero, Option.map_some, Option.getD_some, isTail,
        Bool.and_eq_true, decide_eq_true_eq, toNat_tail]
      rw [if_neg (by omega), if_pos (by omega), if_pos (by omega)]
      simp only [length_cons, length_nil, Option.some.injEq, Prod.mk.injEq, and_true]
      omega
    · split at hb
      · obtain ⟨rfl, rfl⟩ := List.cons.inj hb
        rw [toNat_ofNat_of_lt (by omega), sequenceAt]
        simp only [cons_append, getElem?_cons_zero, getElem?_cons_succ, Option.map_some,
          Option.getD_some, isTail, Bool.and_eq_true, decide_eq_true_eq, beq_iff_eq, toNat_tail]
        rw [if_neg (by omega), if_neg (by omega), if_pos (by omega), if_pos (by split <;> split <;> omega)]
        simp only [length_cons, length_nil, Option.some.injEq, Prod.mk.injEq, and_true]
        omega
      · obtain ⟨rfl, rfl⟩ := List.cons.inj hb
        rw [toNat_ofNat_of_lt (by omega), sequenceAt]
        simp only [cons_append, getElem?_cons_zero, getElem?_cons_succ, Option.map_some,
          Option.getD_some, isTail, Bool.and_eq_true, decide_eq_true_eq, beq_iff_eq, toNat_tail]
        rw [if_neg (by omega), if_neg (by omega), if_neg (by omega), if_pos (by omega),
          if_pos (by split <;> split <;> omega)]
        simp only [length_cons, length_nil, Option.some.injEq, Prod.mk.injEq, and_true]
        omega

variable {rest : List UInt8} {text : Text}

/-- The well-formed sequences, by their length. -/
private theorem sequenceAt_cases {lead : Nat} {code taken : Nat} (h : sequenceAt lead rest = some (code, taken)) :
    (lead < 0x80 ∧ code = lead ∧ taken = 0) ∨
    (∃ b : UInt8, rest.take 1 = [b] ∧ taken = 1 ∧ 0xC2 ≤ lead ∧ lead ≤ 0xDF ∧ 0x80 ≤ b.toNat ∧ b.toNat ≤ 0xBF ∧
      code = (lead - 0xC0) * 64 + (b.toNat - 0x80)) ∨
    (∃ b c : UInt8, rest.take 2 = [b, c] ∧ taken = 2 ∧ 0xE0 ≤ lead ∧ lead ≤ 0xEF ∧ 0x80 ≤ b.toNat ∧ b.toNat ≤ 0xBF ∧
      (lead = 0xE0 → 0xA0 ≤ b.toNat) ∧ (lead = 0xED → b.toNat ≤ 0x9F) ∧ 0x80 ≤ c.toNat ∧ c.toNat ≤ 0xBF ∧
      code = (lead - 0xE0) * 4096 + (b.toNat - 0x80) * 64 + (c.toNat - 0x80)) ∨
    ∃ b c d : UInt8, rest.take 3 = [b, c, d] ∧ taken = 3 ∧ 0xF0 ≤ lead ∧ lead ≤ 0xF4 ∧
      0x80 ≤ b.toNat ∧ b.toNat ≤ 0xBF ∧ (lead = 0xF0 → 0x90 ≤ b.toNat) ∧ (lead = 0xF4 → b.toNat ≤ 0x8F) ∧
      0x80 ≤ c.toNat ∧ c.toNat ≤ 0xBF ∧ 0x80 ≤ d.toNat ∧ d.toNat ≤ 0xBF ∧
      code = (lead - 0xF0) * 262144 + (b.toNat - 0x80) * 4096 + (c.toNat - 0x80) * 64 + (d.toNat - 0x80) := by
  unfold sequenceAt at h
  simp only [isTail, Bool.and_eq_true, decide_eq_true_eq, beq_iff_eq] at h
  -- the leading byte tells how many bytes follow; the second byte has bounds of its own
  by_cases ho : lead < 0x80
  · rw [if_pos ho] at h
    simp only [Option.some.injEq, Prod.mk.injEq] at h
    exact .inl ⟨ho, h.1.symm, h.2.symm⟩
  rw [if_neg ho] at h
  by_cases htw : 0xC2 ≤ lead ∧ lead ≤ 0xDF
  · rw [if_pos htw] at h
    rcases rest with _ | ⟨b, rest⟩
    · simp at h
    simp only [getElem?_cons_zero, Option.map_some, Option.getD_some] at h
    split at h
    · simp only [Option.some.injEq, Prod.mk.injEq] at h
      exact .inr (.inl ⟨b, rfl, h.2.symm, htw.1, htw.2, by omega, by omega, h.1.symm⟩)
    · cases h
  rw [if_neg htw] at h
  by_cases ht : 0xE0 ≤ lead ∧ lead ≤ 0xEF
  · rw [if_pos ht] at h
    rcases rest with _ | ⟨b, _ | ⟨c, rest⟩⟩
    · simp at h
    · simp at h
    simp only [getElem?_cons_zero, getElem?_cons_succ, Option.map_some, Option.getD_some] at h
    by_cases hr : ((if lead = 0xE0 then 0xA0 else 0x80) ≤ b.toNat ∧
        b.toNat ≤ if lead = 0xED then 0x9F else 0xBF) ∧ 0x80 ≤ c.toNat ∧ c.toNat ≤ 0xBF
    · rw [if_pos hr] at h
      simp only [Option.some.injEq, Prod.mk.injEq] at h
      refine .inr (.inr (.inl ⟨b, c, rfl, h.2.symm, ht.1, ht.2, ?_, ?_, ?_, ?_, ?_, ?_, h.1.symm⟩))
      all_goals split at hr <;> split at hr <;> omega
    · rw [if_neg hr] at h
      cases h
  rw [if_neg ht] at h
  by_cases hf : 0xF0 ≤ lead ∧ lead ≤ 0xF4
  · rw [if_pos hf] at h
    rcases rest with _ | ⟨b, _ | ⟨c, _ | ⟨d, rest⟩⟩⟩
    · simp at h
    · simp at h
    · simp at h
    simp only [getElem?_cons_zero, getElem?_cons_succ, Option.map_some, Option.getD_some] at h
    by_cases hr : (((if lead = 0xF0 then 0x90 else 0x80) ≤ b.toNat ∧
        b.toNat ≤ if lead = 0xF4 then 0x8F else 0xBF) ∧ 0x80 ≤ c.toNat ∧ c.toNat ≤ 0xBF) ∧ 0x80 ≤ d.toNat ∧ d.toNat ≤ 0xBF
    · rw [if_pos hr] at h
      simp only [Option.some.injEq, Prod.mk.injEq] at h
      refine .inr (.inr (.inr ⟨b, c, d, rfl, h.2.symm, hf.1, hf.2, ?_, ?_, ?_, ?_, ?_, ?_, ?_, ?_, h.1.symm⟩))
      all_goals split at hr <;> split at hr <;> omega
    · rw [if_neg hr] at h
      cases h
  rw [if_neg hf] at h
  cases h

/-- What is read as a character is what the character is written as. -/
theorem eq_bytesOf_of_sequenceAt {lead : UInt8} {code taken : Nat} (h : sequenceAt lead.toNat rest = some (code, taken)) :
    code.isValidChar ∧ bytesOf code = lead :: rest.take taken := by
  have hv : code.isValidChar ↔ code < 0xD800 ∨ 0xDFFF < code ∧ code < 0x110000 := Iff.rfl
  rw [hv, Glyph.bytesOf]
  rcases sequenceAt_cases h with ⟨hl, hcd, rfl⟩ | ⟨b, hr, rfl, hlw, hh, hb, hb', hcd⟩ |
    ⟨b, c, hr, rfl, hlw, hh, hb, hb', he0, hed, hc, hc', hcd⟩ |
    ⟨b, c, d, hr, rfl, hlw, hh, hb, hb', hf0, hf4, hc, hc', hd, hd', hcd⟩
  · refine ⟨by omega, ?_⟩
    rw [if_pos (by omega), ofNat_eq hcd, take_zero]
  · refine ⟨by omega, ?_⟩
    rw [hr, if_neg (by omega), if_pos (by omega), @ofNat_eq _ lead (by omega), @ofNat_eq _ b (by omega)]
  · refine ⟨by omega, ?_⟩
    rw [hr, if_neg (by omega), if_neg (by omega), if_pos (by omega), @ofNat_eq _ lead (by omega),
      @ofNat_eq _ b (by omega), @ofNat_eq _ c (by omega)]
  · refine ⟨by omega, ?_⟩
    rw [hr, if_neg (by omega), if_neg (by omega), if_neg (by omega), @ofNat_eq _ lead (by omega),
      @ofNat_eq _ b (by omega), @ofNat_eq _ c (by omega), @ofNat_eq _ d (by omega)]

/-! ## Reading and writing -/

theorem encode_cons (g : Glyph) (text : Text) : encode (g :: text) = g.bytes ++ encode text :=
  flatMap_cons

theorem encode_append (text more : Text) : encode (text ++ more) = encode text ++ encode more :=
  flatMap_append

private theorem exists_bytesOf_eq (n : Nat) : ∃ lead tail, bytesOf n = lead :: tail := by
  unfold Glyph.bytesOf
  split
  · exact ⟨_, _, rfl⟩
  · split
    · exact ⟨_, _, rfl⟩
    · split <;> exact ⟨_, _, rfl⟩

theorem Glyph.width_pos (g : Glyph) : 0 < g.width := by
  cases g with
  | scalar c =>
    obtain ⟨lead, tail, h⟩ := exists_bytesOf_eq c.toNat
    rw [width, bytes, h]
    exact Nat.succ_pos _
  | stray b => exact Nat.succ_pos 0

private theorem decode_scalar_append (c : Char) (more : List UInt8) :
    decode ((Glyph.scalar c).bytes ++ more) = .scalar c :: decode more := by
  obtain ⟨lead, tail, hb⟩ := exists_bytesOf_eq c.toNat
  have hr : sequenceAt lead.toNat (tail ++ more) = some (c.toNat, tail.length) :=
    sequenceAt_bytesOf c.valid hb more
  rw [Glyph.bytes, hb, cons_append, decode, hr]
  simp only [Char.ofNat_toNat, drop_left]

/-- No byte is lost when bytes are read as text. -/
theorem encode_decode (bytes : List UInt8) : encode (decode bytes) = bytes := by
  fun_induction decode with
  | case1 => rfl
  | case2 lead rest code taken h ih =>
    obtain ⟨hv, hb⟩ := eq_bytesOf_of_sequenceAt h
    have hc : (Char.ofNat code).toNat = code := by
      rw [Char.ofNat, dif_pos hv]
      rfl
    rw [encode_cons, Glyph.bytes, hc, hb, ih, cons_append, take_append_drop]
  | case3 lead rest h ih => rw [encode_cons, Glyph.bytes, ih, singleton_append]

/-! ## Texts that are read back -/

def Canonical (text : Text) : Prop :=
  decode (encode text) = text

theorem canonical_decode (bytes : List UInt8) : Canonical (decode bytes) := by
  rw [Canonical, encode_decode]

theorem canonical_ofString (s : String) : Canonical (Text.ofString s) := by
  rw [Canonical, Text.ofString]
  induction s.toList with
  | nil => exact decode.eq_1
  | cons c rest ih =>
    rw [map_cons, encode_cons, decode_scalar_append, ih]

private theorem decode_stray_append {b : UInt8} (h : decode (b :: rest) = .stray b :: text) :
    sequenceAt b.toNat rest = none ∧ decode rest = text := by
  rw [decode] at h
  cases hs : sequenceAt b.toNat rest with
  | none =>
    rw [hs] at h
    exact ⟨rfl, (List.cons.inj h).2⟩
  | some found =>
    rw [hs] at h
    cases (List.cons.inj h).1

theorem Canonical.tail {g : Glyph} {text : Text} (h : Canonical (g :: text)) : Canonical text := by
  rw [Canonical, encode_cons] at h
  cases g with
  | scalar c =>
    rw [decode_scalar_append] at h
    exact (List.cons.inj h).2
  | stray b => exact (decode_stray_append h).2

/-- A sequence that is not well formed does not become so when it is cut off. -/
private theorem sequenceAt_eq_none_of_append {b : UInt8} {more : List UInt8}
    (h : sequenceAt b.toNat (rest ++ more) = none) : sequenceAt b.toNat rest = none := by
  cases hs : sequenceAt b.toNat rest with
  | none => rfl
  | some found =>
    obtain ⟨code, taken⟩ := found
    obtain ⟨hv, hb⟩ := eq_bytesOf_of_sequenceAt hs
    have hf := sequenceAt_bytesOf hv hb (rest.drop taken ++ more)
    rw [← append_assoc, take_append_drop, h] at hf
    cases hf

theorem Canonical.append_left {more : Text} (h : Canonical (text ++ more)) : Canonical text := by
  induction text with
  | nil => exact decode.eq_1
  | cons g text ih =>
    have hr : decode (encode text) = text := ih h.tail
    rw [Canonical, cons_append, encode_cons, encode_append] at h
    rw [Canonical, encode_cons]
    cases g with
    | scalar c => rw [decode_scalar_append, hr]
    | stray b =>
      have hn : sequenceAt b.toNat (encode text ++ encode more) = none := (decode_stray_append h).1
      rw [Glyph.bytes, singleton_append, decode, sequenceAt_eq_none_of_append hn]
      simp only [hr]

theorem Canonical.append_right {more : Text} (h : Canonical (text ++ more)) : Canonical more := by
  induction text with
  | nil => exact h
  | cons g text ih => exact ih h.tail

theorem Canonical.infix (h : Canonical text) (start count : Nat) : Canonical ((text.drop start).take count) := by
  rw [← take_append_drop start text] at h
  have hd := h.append_right
  rw [← take_append_drop count (text.drop start)] at hd
  exact hd.append_left

end TreeLint
