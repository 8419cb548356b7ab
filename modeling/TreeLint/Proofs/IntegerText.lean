import Mathlib.Algebra.Group.Nat.Defs
import Mathlib.Data.List.TakeWhile
import TreeLint.Number.Reader

/-!
# Numerals

* `integerText`: an integer in words, as its sign and its digits;
* `readInt?_integerText`: it is read as the integer if it has no more digits than are read;
* `isWritable_of_ofWord?`: numbers that are read can be written;
* `readDouble?_ne_nan`: a numeral with a point is a number.
-/

namespace TreeLint

open List

/-- A character that stands for itself in a word and is no part of its margins. -/
def isVerbatim (c : Char) : Bool :=
  c.toNat < 128 && !isMargin c

def integerText (value : Int) : List Char :=
  (if value < 0 then ['-'] else []) ++ Nat.toDigits 10 value.natAbs

theorem toList_toString_int (value : Int) : (toString value).toList = integerText value := by
  cases value with
  | ofNat n =>
    have ht : toString (Int.ofNat n) = toString n := rfl
    have hs : ¬ Int.ofNat n < 0 := Int.not_lt.2 (Int.natCast_nonneg n)
    rw [ht, Nat.toString_eq_ofList_toDigits, String.toList_ofList, integerText, if_neg hs]
    rfl
  | negSucc n =>
    have ht : toString (Int.negSucc n) = "-" ++ toString (n + 1) := rfl
    have hd : (toString (n + 1)).toList = Nat.toDigits 10 (n + 1) := by
      rw [Nat.toString_eq_ofList_toDigits, String.toList_ofList]
    rw [ht, String.toList_append, hd, integerText, if_pos (Int.negSucc_lt_zero n)]
    rfl

variable {c : Char}

theorem isDigit_of_mem_toDigits {n : Nat} (h : c ∈ Nat.toDigits 10 n) : c.isDigit :=
  Nat.isDigit_of_mem_toDigits (by decide) (by decide) h

theorem isDigit_bounds (h : c.isDigit) : 48 ≤ c.toNat ∧ c.toNat ≤ 57 := by
  simpa [Char.isDigit, UInt32.le_iff_toNat_le] using h

private theorem isVerbatim_of_isDigit (h : c.isDigit) : isVerbatim c := by
  have hb := isDigit_bounds h
  have hs : (c == ' ') = false := beq_false_of_ne (by rintro rfl; revert h; decide)
  simp [isVerbatim, isMargin, hs]
  omega

theorem mem_integerText {value : Int} (h : c ∈ integerText value) : c = '-' ∨ c.isDigit := by
  rcases mem_append.1 h with h | h
  · split at h
    · exact .inl (mem_singleton.1 h)
    · cases h
  · exact .inr (isDigit_of_mem_toDigits h)

theorem integerText_ne_nil (value : Int) : integerText value ≠ [] :=
  append_ne_nil_of_right_ne_nil _ Nat.toDigits_ne_nil

private theorem isVerbatim_of_mem_integerText {value : Int} (h : c ∈ integerText value) : isVerbatim c := by
  rcases mem_integerText h with rfl | h
  · decide
  · exact isVerbatim_of_isDigit h

private theorem plainWord?_eq_some {word : List Char} (h : ∀ c ∈ word, isVerbatim c) : plainWord? word = some word := by
  have hm : ∀ text : List Char, (∀ c ∈ text, c ∈ word) → text.dropWhile isMargin = text := by
    intro text ht
    cases text with
    | nil => rfl
    | cons c text =>
      have hc := h c (ht c mem_cons_self)
      rw [isVerbatim, Bool.and_eq_true, Bool.not_eq_true'] at hc
      exact dropWhile_cons_of_neg (by simp [hc.2])
  have hmp : word.mapM plainDigit? = some word := by
    clear hm
    induction word with
    | nil => rfl
    | cons c word ih =>
      have hc := h c mem_cons_self
      rw [isVerbatim, Bool.and_eq_true, decide_eq_true_eq] at hc
      rw [mapM_cons, ih (forall_mem_cons.1 h).2, plainDigit?, if_pos hc.1]
      rfl
  rw [plainWord?, hmp, Option.map_some, hm word fun _ => id, hm _ fun _ => mem_reverse.1, reverse_reverse]

private theorem joinDigits?_eq_some {digits : List Char} (h : ∀ c ∈ digits, c.isDigit) (afterDigit : Bool) :
    joinDigits? afterDigit digits = some digits := by
  induction digits generalizing afterDigit with
  | nil => rfl
  | cons c digits ih =>
    have hc : c ≠ '_' := by
      rintro rfl
      exact absurd (h '_' mem_cons_self) (by decide)
    rw [joinDigits?, ih (forall_mem_cons.1 h).2]
    · rfl
    · exact hc

private theorem splitSign_integerText (value : Int) :
    splitSign (integerText value) = (decide (value < 0), Nat.toDigits 10 value.natAbs) := by
  rw [integerText]
  split
  next h => simp [splitSign, h]
  next h =>
    rw [nil_append]
    unfold splitSign
    split
    next heq => exact absurd (isDigit_of_mem_toDigits (heq ▸ mem_cons_self)) (by decide)
    next heq => exact absurd (isDigit_of_mem_toDigits (heq ▸ mem_cons_self)) (by decide)
    · simp [h]

theorem isWritable_int_iff (value : Int) :
    (Number.int value).isWritable ↔ value.natAbs < 10 ^ maxIntDigits := by
  rw [Number.isWritable, decide_eq_true_iff]
  exact Nat.length_toDigits_le_iff (by decide) (by decide)

theorem readInt?_integerText (value : Int) :
    readInt? (integerText value) = if value.natAbs < 10 ^ maxIntDigits then some value else none := by
  have hd : ∀ c ∈ Nat.toDigits 10 value.natAbs, c.isDigit := fun c => isDigit_of_mem_toDigits
  have hv : digitsValue (Nat.toDigits 10 value.natAbs) = value.natAbs := Nat.ofDigitChars_ten_toDigits
  have hl := @Nat.length_toDigits_le_iff 10 value.natAbs maxIntDigits (by decide) (by decide)
  rw [readInt?, plainWord?_eq_some fun c => isVerbatim_of_mem_integerText]
  simp only [splitSign_integerText, joinDigits?_eq_some hd, Option.bind_eq_bind, Option.bind_some, hv]
  have he : (Nat.toDigits 10 value.natAbs).isEmpty = false := by simp
  have hs : (if decide (value < 0) = true then -Int.ofNat value.natAbs else Int.ofNat value.natAbs) = value := by
    simp only [decide_eq_true_eq, Int.ofNat_eq_natCast]
    omega
  rw [he, all_eq_true.2 hd, hs]
  by_cases hsh : value.natAbs < 10 ^ maxIntDigits
  · rw [if_pos hsh, if_neg (by simpa using hl.2 hsh)]
    rfl
  · rw [if_neg hsh, if_pos (by simpa using mt hl.1 hsh)]

/-! ## Integers that are read -/

private theorem foldl_digits_lt {digits : List Char} (h : ∀ c ∈ digits, c.isDigit) (n : Nat) :
    digits.foldl (fun n c => 10 * n + (c.toNat - 48)) n < (n + 1) * 10 ^ digits.length := by
  induction digits generalizing n with
  | nil => simp
  | cons c digits ih =>
    rw [forall_mem_cons] at h
    have hc := isDigit_bounds h.1
    calc digits.foldl (fun n c => 10 * n + (c.toNat - 48)) (10 * n + (c.toNat - 48))
      _ < (10 * n + (c.toNat - 48) + 1) * 10 ^ digits.length := ih h.2 _
      _ ≤ (n + 1) * 10 * 10 ^ digits.length := Nat.mul_le_mul_right _ (by omega)
      _ = (n + 1) * 10 ^ (c :: digits).length := by rw [length_cons, Nat.pow_succ', Nat.mul_assoc]

private theorem natAbs_lt_of_readInt? {word : List Char} {value : Int} (h : readInt? word = some value) :
    value.natAbs < 10 ^ maxIntDigits := by
  simp only [readInt?, Option.bind_eq_bind, Option.bind_eq_some_iff] at h
  obtain ⟨plain, -, digits, -, h⟩ := h
  split at h
  next => cases h
  next hc =>
    rw [Bool.or_eq_true, Bool.or_eq_true, not_or, not_or, decide_eq_true_iff, Nat.not_lt] at hc
    have hd : digits.all Char.isDigit := by simpa using hc.1.2
    have hv : value.natAbs = digitsValue digits := by
      rw [Option.pure_def, Option.some.injEq] at h
      rw [← h]
      split <;> simp
    rw [hv, digitsValue]
    have hlt := foldl_digits_lt (all_eq_true.1 hd) 0
    rw [Nat.zero_add, Nat.one_mul] at hlt
    exact Nat.lt_of_lt_of_le hlt (Nat.pow_le_pow_right (by decide) hc.2)

theorem isWritable_of_ofWord? {word : List Char} {value : Number} (h : Number.ofWord? word = some value) :
    value.isWritable := by
  rw [Number.ofWord?] at h
  split at h
  next value hr =>
    cases h
    exact (isWritable_int_iff value).2 (natAbs_lt_of_readInt? hr)
  next =>
    obtain ⟨double, -, rfl⟩ := Option.map_eq_some_iff.1 h
    rfl

/-! ## Points -/

private theorem mem_dropWhile_isMargin {text : List Char} (h : '.' ∈ text) : '.' ∈ text.dropWhile isMargin := by
  rw [← takeWhile_append_dropWhile (p := isMargin) (l := text), mem_append] at h
  exact h.resolve_left fun hm => absurd (mem_takeWhile_imp hm) (by decide)

private theorem mem_mapM_plainDigit? {word plain : List Char} (h : word.mapM plainDigit? = some plain)
    (hp : '.' ∈ word) :
    '.' ∈ plain := by
  induction word generalizing plain with
  | nil => cases hp
  | cons c word ih =>
    simp only [mapM_cons, Option.bind_eq_bind, Option.bind_eq_some_iff, Option.pure_def, Option.some.injEq] at h
    obtain ⟨first, hf, rest, hr, rfl⟩ := h
    rcases mem_cons.1 hp with rfl | hp
    · cases hf
      exact mem_cons_self
    · exact mem_cons_of_mem _ (ih hr hp)

private theorem mem_joinDigits? {afterDigit : Bool} {word joined : List Char}
    (h : joinDigits? afterDigit word = some joined)
    (hp : '.' ∈ word) : '.' ∈ joined := by
  fun_induction joinDigits? afterDigit word generalizing joined with
  | case1 => cases hp
  | case2 afterDigit next rest _ ih => exact ih h (by simpa using hp)
  | case3 | case4 => cases h
  | case5 afterDigit c rest _ ih =>
    obtain ⟨others, ho, rfl⟩ := Option.map_eq_some_iff.1 h
    rcases mem_cons.1 hp with rfl | hp
    · exact mem_cons_self
    · exact mem_cons_of_mem _ (ih ho hp)

private theorem mem_splitSign {word : List Char} (hp : '.' ∈ word) : '.' ∈ (splitSign word).2 := by
  unfold splitSign
  split <;> simpa using hp

private theorem ofRatio_ne_nan (negative : Bool) (n d : Nat) : Double.ofRatio negative n d ≠ .nan := by
  unfold Double.ofRatio
  split
  · exact Double.noConfusion
  · extract_lets e
    generalize Double.scaled n d e = ratio
    obtain ⟨n, d⟩ := ratio
    dsimp only
    split <;> split <;> exact Double.noConfusion

private theorem ofDecimal_ne_nan (negative : Bool) (digits : Nat) (exponent : Int) :
    Double.ofDecimal negative digits exponent ≠ .nan := by
  unfold Double.ofDecimal
  dsimp only
  split_ifs
  · exact Double.noConfusion
  · exact Double.noConfusion
  · exact ofRatio_ne_nan _ _ _
  · exact ofRatio_ne_nan _ _ _

/-- What is written with a point is not read as NaN. -/
theorem readDouble?_ne_nan {word : List Char} (hp : '.' ∈ word) : readDouble? word ≠ some .nan := by
  intro h
  simp only [readDouble?, plainWord?, Option.bind_eq_bind, Option.bind_eq_some_iff, Option.map_eq_some_iff] at h
  obtain ⟨_, ⟨plain, hm, rfl⟩, joined, hj, h⟩ := h
  have hb : '.' ∈ (splitSign joined).2 := by
    refine mem_splitSign (mem_joinDigits? hj (mem_reverse.2 (mem_dropWhile_isMargin (mem_reverse.2 ?_))))
    exact mem_dropWhile_isMargin (mem_mapM_plainDigit? hm hp)
  have hl : ((splitSign joined).2.map Char.toLower == "nan".toList) = false := by
    refine beq_false_of_ne fun heq => ?_
    have := mem_map_of_mem (f := Char.toLower) hb
    rw [heq] at this
    revert this
    decide
  simp only [hl, Bool.false_eq_true, if_false] at h
  split at h
  · cases h
  split at h
  all_goals
    split at h
    · cases h
    obtain ⟨exponent, _, h⟩ := Option.bind_eq_some_iff.1 h
    exact ofDecimal_ne_nan _ _ _ (Option.some.inj h)

end TreeLint
