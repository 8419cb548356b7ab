import TreeLint.Proofs.IntegerText
import TreeLint.Proofs.Stop

/-!
# Forms that are written and read back

* `Sexp.Faithful`: forms of strings, integers, and symbols that are identifiers and no numbers;
* `Sexp.isWritable_iff`: a form cannot be written only if it holds too long an integer;
* `Sexp.Reads`: what a text adds to the list that is open, whatever follows it that ends an atom;
* `Sexp.isWritable_of_readAll`: what is read can be written;
* `Sexp.written_read_back`: faithful forms that can be written are read back from what is written of them, one by one
  and several at a time.
-/

namespace TreeLint

open List

namespace Sexp

def isIdentifier : List Char → Bool
  | [] => false
  | first :: rest => (first.isAlpha || first == '_') && rest.all fun c => c.isAlphanum || c == '_' || c == '-'

inductive Faithful : Sexp → Prop
  | list {items : List Sexp} (h : ∀ item ∈ items, Faithful item) : Faithful (list items)
  | symbol {name : String} (hi : isIdentifier name.toList) (hn : Number.ofWord? name.toList = none) :
    Faithful (symbol name)
  | string (value : String) : Faithful (string value)
  | int (value : Int) : Faithful (number (.int value))

/-- An integer stands somewhere in a form. -/
inductive Holds (value : Int) : Sexp → Prop
  | here : Holds value (number (.int value))
  | inside {item : Sexp} {items : List Sexp} : item ∈ items → Holds value item → Holds value (list items)

/-- What is written of forms, one after the other, with spaces and newlines between them. -/
inductive Joined : List Sexp → List Char → Prop
  | nil : Joined [] []
  | one {form : Sexp} {text : String} : form.dump = .ok text → Joined [form] text.toList
  | cons {form next : Sexp} {forms : List Sexp} {text : String} {gap rest : List Char} : form.dump = .ok text →
    gap ≠ [] → (∀ c ∈ gap, c = ' ' ∨ c = '\n') → Joined (next :: forms) rest →
      Joined (form :: next :: forms) (text.toList ++ (gap ++ rest))

/-! ## Forms that can be written -/

private theorem areWritable_iff {items : List Sexp} :
    isWritable.areWritable items ↔ ∀ item ∈ items, item.isWritable := by
  induction items with
  | nil => simp [isWritable.areWritable]
  | cons item items ih => rw [isWritable.areWritable, Bool.and_eq_true, ih, forall_mem_cons]

private theorem dump_eq_ok_iff {form : Sexp} {text : String} :
    form.dump = .ok text ↔ form.isWritable ∧ text = form.text := by
  rw [dump]
  split
  next h => simp [h, eq_comm]
  next h => simp [h]

private theorem dump_eq_error_iff {form : Sexp} : form.dump = .error .longInteger ↔ ¬ form.isWritable := by
  rw [dump]
  split
  next h => simp [h]
  next h => simp [h]

/-- A form can be written unless it holds an integer with too many digits. -/
theorem Faithful.isWritable_iff {form : Sexp} (h : Faithful form) :
    form.isWritable ↔ ∀ value, Holds value form → value.natAbs < 10 ^ maxIntDigits := by
  induction h with
  | list _ ih =>
    rw [isWritable, areWritable_iff]
    constructor
    · rintro h value (_ | ⟨hm, hv⟩)
      exact (ih _ hm).1 (h _ hm) value hv
    · intro h item hm
      exact (ih item hm).2 fun value hv => h value (.inside hm hv)
  | symbol | string => exact iff_of_true rfl nofun
  | int value =>
    rw [isWritable, isWritable_int_iff]
    exact ⟨fun h other ho => by cases ho; exact h, fun h => h value .here⟩

private theorem joined_renderItems {items : List Sexp} (h : ∀ item ∈ items, item.isWritable) :
    Joined items (render.renderItems items) := by
  have hd : ∀ item ∈ items, ∃ text : String, item.dump = .ok text ∧ text.toList = item.render := fun item hi =>
    ⟨item.text, dump_eq_ok_iff.2 ⟨h item hi, rfl⟩, String.toList_ofList⟩
  induction items with
  | nil => exact .nil
  | cons item items ih =>
    rw [forall_mem_cons] at h hd
    obtain ⟨⟨text, ht, hl⟩, hd⟩ := hd
    cases items with
    | nil =>
      rw [render.renderItems, ← hl]
      exact .one ht
    | cons next items =>
      rw [render.renderItems, ← hl]
      · exact @Joined.cons _ _ _ _ [' '] _ ht (by simp) (by simp) (ih h.2 hd)
      · exact cons_ne_nil _ _

/-! ## Forms as they are read -/

def datum : Sexp → Datum
  | list items => .list .round (data items)
  | symbol name => .symbol name
  | string value => .string value
  | number value => .number value
where
  data : List Sexp → List Datum
    | [] => []
    | form :: forms => datum form :: data forms

mutual

private theorem ofDatum_datum (form : Sexp) : ofDatum form.datum = .ok form := by
  cases form with
  | list items => rw [datum, ofDatum, ofData_data]; rfl
  | symbol name => rfl
  | string value => rfl
  | number value => rfl

private theorem ofData_data (forms : List Sexp) : ofDatum.ofData (datum.data forms) = .ok forms := by
  cases forms with
  | nil => rfl
  | cons form forms => rw [datum.data, ofDatum.ofData, ofDatum_datum, ofData_data]; rfl

end

/-! ## Scanning -/

variable {word rest chars : List Char} {data more : List Datum} {c : Char}

/-- Nothing follows that an atom would go on with. -/
def Stops (rest : List Char) : Prop :=
  rest.head?.all endsAtom

def isBare (c : Char) : Bool :=
  !endsAtom c && c != '\\' && c != '\''

/-- From any position on, the text adds the data to the list that is open. -/
def Reads (word : List Char) (data : List Datum) : Prop :=
  ∀ (top : Frame) (outer : List Frame) (position : Nat) (rest : List Char), top.quotes = [] → Stops rest →
    ∃ next, assemble top outer (scan position .between (word ++ rest)) =
      assemble { top with items := data.reverse ++ top.items } outer (scan next .between rest)

private theorem scan_gap (h : ∀ c ∈ word, isSpace c) (pos : Nat) (rest : List Char) :
    ∃ next, scan pos .between (word ++ rest) = scan next .between rest := by
  induction word generalizing pos with
  | nil => exact ⟨pos, rfl⟩
  | cons c word ih =>
    rw [forall_mem_cons] at h
    obtain ⟨next, hn⟩ := ih h.2 (pos + 1)
    refine ⟨next, ?_⟩
    rw [cons_append, scan, startAt, if_pos h.1]
    exact hn

private theorem scan_atom (hc : chars.all isBare) (hr : Stops rest) (pos : Nat) (read : List Char) :
    ∃ next, scan pos (.atom read) (chars ++ rest) =
      .atom (read.reverse ++ chars) :: scan next .between rest := by
  induction chars generalizing pos read with
  | nil =>
    refine ⟨pos, ?_⟩
    cases rest with
    | nil => simp [scan]
    | cons c rest =>
      have he : endsAtom c := hr
      simp [scan, he]
  | cons c chars ih =>
    rw [all_cons, Bool.and_eq_true, isBare, Bool.and_eq_true, Bool.and_eq_true] at hc
    have he : endsAtom c = false := by simpa using hc.1.1.1
    have hs : (c == '\\') = false := by simpa using hc.1.1.2
    obtain ⟨next, hn⟩ := ih hc.2 (pos + 1) (c :: read)
    refine ⟨next, ?_⟩
    rw [cons_append, scan, he, hs, if_neg Bool.false_ne_true, if_neg Bool.false_ne_true, hn, reverse_cons,
      append_assoc, singleton_append]

private theorem startAt_of_isBare (h : isBare c) (pos : Nat) (rest : List Char) :
    startAt pos c rest = ([], .atom [c]) := by
  simp only [isBare, endsAtom, Bool.and_eq_true, Bool.not_eq_true', Bool.or_eq_false_iff, bne_iff_ne] at h
  simp [startAt, h]

private theorem reads_atom (hn : word ≠ []) (hc : word.all isBare) : Reads word [.ofAtom word] := by
  intro top outer pos rest hq hr
  obtain ⟨c, chars, rfl⟩ := exists_cons_of_ne_nil hn
  rw [all_cons, Bool.and_eq_true] at hc
  have hs : scan pos .between (c :: chars ++ rest) = scan (pos + 1) (.atom [c]) (chars ++ rest) := by
    rw [cons_append, scan, startAt_of_isBare hc.1]
    rfl
  obtain ⟨next, hn⟩ := scan_atom hc.2 hr (pos + 1) [c]
  refine ⟨next, ?_⟩
  rw [hs, hn, assemble, Frame.push, hq]
  rfl

private theorem scan_string (chars : List Char) (pos : Nat) (read rest : List Char) :
    ∃ next, scan pos (.string read) (escape chars ++ '"' :: rest) =
      .string (read.reverse ++ chars) :: scan next .between rest := by
  induction chars generalizing pos read with
  | nil => exact ⟨pos + 1, by simp [escape, scan]⟩
  | cons c chars ih =>
    rw [escape]
    split
    next h =>
      have hu : unescapeString c = [c] := by
        rw [Bool.or_eq_true, beq_iff_eq, beq_iff_eq] at h
        rcases h with rfl | rfl <;> rfl
      obtain ⟨next, hn⟩ := ih (pos + 1 + 1) (c :: read)
      refine ⟨next, ?_⟩
      simp [scan, hu, hn]
    next h =>
      rw [Bool.or_eq_true, beq_iff_eq, beq_iff_eq, not_or] at h
      obtain ⟨next, hn⟩ := ih (pos + 1) (c :: read)
      refine ⟨next, ?_⟩
      simp [scan, h, hn]

private theorem reads_string (value : String) : Reads (render (string value)) [.string value] := by
  intro top outer pos rest hq hr
  obtain ⟨next, hn⟩ := scan_string value.toList (pos + 1) [] rest
  refine ⟨next, ?_⟩
  have hs : scan pos .between (render (string value) ++ rest) =
      scan (pos + 1) (.string []) (escape value.toList ++ '"' :: rest) := by
    rw [render, cons_append, cons_append, append_assoc, singleton_append]
    rfl
  rw [hs, hn, assemble, Frame.push, hq, reverse_nil, nil_append, String.ofList_toList]
  rfl

theorem Reads.inList (h : Reads word data) : Reads ('(' :: word ++ [')']) [.list .round data] := by
  intro top outer pos rest hq hr
  obtain ⟨next, hn⟩ := h ⟨.round, [], []⟩ (top :: outer) (pos + 1) (')' :: rest) rfl rfl
  refine ⟨next + 1, ?_⟩
  have ho : scan pos .between ('(' :: word ++ [')'] ++ rest) =
      .opening .round :: scan (pos + 1) .between (word ++ ')' :: rest) := by
    rw [append_assoc, singleton_append, cons_append]
    rfl
  have hc : scan next .between (')' :: rest) = .closing .round (')' :: rest) :: scan (next + 1) .between rest := rfl
  rw [ho, assemble, hn, hc]
  simp [assemble, Frame.push, hq]

/-- Two texts that are read stand side by side with blanks between them. -/
theorem Reads.append {gap : List Char} (h : Reads word data) (hg : gap ≠ []) (hc : ∀ c ∈ gap, isSpace c)
    (hm : Reads chars more) : Reads (word ++ (gap ++ chars)) (data ++ more) := by
  intro top outer pos rest hq hr
  have hs : Stops (gap ++ (chars ++ rest)) := by
    obtain ⟨c, gap, rfl⟩ := exists_cons_of_ne_nil hg
    simp [Stops, endsAtom, hc c mem_cons_self]
  obtain ⟨next, hn⟩ := h top outer pos _ hq hs
  obtain ⟨start, hg⟩ := scan_gap hc next (chars ++ rest)
  obtain ⟨last, hl⟩ := hm { top with items := data.reverse ++ top.items } outer start rest hq hr
  refine ⟨last, ?_⟩
  rw [append_assoc, append_assoc, hn, hg, hl]
  simp

private theorem reads_joined {forms : List Sexp} (hf : ∀ form ∈ forms, form.isWritable → Reads form.render [form.datum])
    (h : Joined forms word) : Reads word (datum.data forms) := by
  have hr : ∀ {form : Sexp} {text : String}, (form.isWritable → Reads form.render [form.datum]) →
      form.dump = .ok text → Reads text.toList [form.datum] := by
    intro form text hf hd
    obtain ⟨hw, rfl⟩ := dump_eq_ok_iff.1 hd
    rw [Sexp.text, String.toList_ofList]
    exact hf hw
  induction h with
  | nil => exact fun top outer pos rest _ _ => ⟨pos, rfl⟩
  | one hd => exact hr (hf _ mem_cons_self) hd
  | cons hd hg hc _ ih =>
    rw [forall_mem_cons] at hf
    refine (hr hf.1 hd).append hg (fun c h => ?_) (ih hf.2)
    rcases hc c h with rfl | rfl <;> rfl

/-! ## Atoms -/

private theorem isBare_of_isAlphanum (h : c.isAlphanum) : isBare c := by
  have hb : 48 ≤ c.toNat := by
    unfold Char.isAlphanum Char.isAlpha Char.isUpper Char.isLower Char.isDigit at h
    simp only [Bool.or_eq_true, Bool.and_eq_true, decide_eq_true_eq, UInt32.le_iff_toNat_le, ge_iff_le] at h
    change ((65 ≤ c.toNat ∧ _) ∨ (97 ≤ c.toNat ∧ _)) ∨ (48 ≤ c.toNat ∧ _) at h
    omega
  have hn : ∀ d ∈ [' ', '(', ')', '[', ']', '"', ';', '\\', '\''], c ≠ d := by
    have ha : [' ', '(', ')', '[', ']', '"', ';', '\\', '\''].all (!·.isAlphanum) := by decide
    rintro d hd rfl
    simpa [h] using all_eq_true.1 ha c hd
  simp only [forall_mem_cons] at hn
  simp [isBare, endsAtom, isSpace, hn]
  omega

private theorem isBare_of_isIdentifier (h : isIdentifier chars) : chars ≠ [] ∧ chars.all isBare := by
  cases chars with
  | nil => cases h
  | cons first rest =>
    rw [isIdentifier, Bool.and_eq_true, Bool.or_eq_true, beq_iff_eq, all_eq_true] at h
    refine ⟨cons_ne_nil _ _, all_eq_true.2 (forall_mem_cons.2 ⟨?_, fun c hc => ?_⟩)⟩
    · rcases h.1 with h | rfl
      · exact isBare_of_isAlphanum (by simp [Char.isAlphanum, h])
      · rfl
    · have hi := h.2 c hc
      rw [Bool.or_eq_true, Bool.or_eq_true, beq_iff_eq, beq_iff_eq] at hi
      rcases hi with (h | rfl) | rfl
      · exact isBare_of_isAlphanum h
      · rfl
      · rfl

private theorem isBare_of_mem_integerText {value : Int} (h : c ∈ integerText value) : isBare c := by
  rcases mem_integerText h with rfl | h
  · rfl
  · exact isBare_of_isAlphanum (by simp [Char.isAlphanum, h])

private theorem reads_integerText (value : Int) : Reads (integerText value) [.ofAtom (integerText value)] :=
  reads_atom (integerText_ne_nil value) (all_eq_true.2 fun _ => isBare_of_mem_integerText)

private theorem reads_render {form : Sexp} (h : Faithful form) (hw : form.isWritable) :
    Reads form.render [form.datum] := by
  induction h with
  | list _ ih =>
    rw [isWritable, areWritable_iff] at hw
    exact (reads_joined ih (joined_renderItems hw)).inList
  | @symbol name hi hn =>
    have hb := isBare_of_isIdentifier hi
    have hd : Datum.ofAtom name.toList = .symbol name := by rw [Datum.ofAtom, hn, String.ofList_toList]
    have hr := reads_atom hb.1 hb.2
    rwa [hd] at hr
  | string value => exact reads_string value
  | int value =>
    have hv := (isWritable_int_iff value).1 hw
    have hd : Datum.ofAtom (integerText value) = .number (.int value) := by
      rw [Datum.ofAtom, Number.ofWord?, readInt?_integerText, if_pos hv]
    have hr := reads_integerText value
    rwa [hd, ← toList_toString_int] at hr

/-! ## Reading back -/

private theorem readData_of_reads (h : Reads word data) : readData word = .ok data := by
  obtain ⟨next, hn⟩ := h ⟨.round, [], []⟩ [] 0 [] rfl rfl
  rw [append_nil] at hn
  rw [readData, hn]
  simp [scan, assemble]

private theorem readAll_of_reads {forms : List Sexp} (h : Reads word (datum.data forms)) :
    readAll (String.ofList word) = .ok forms := by
  rw [readAll, String.toList_ofList, readData_of_reads h]
  exact ofData_data forms

/-! ## What is read can be written -/

namespace Datum

/-- All numbers in a datum can be written; what is quoted is refused in any case. -/
inductive Writable : Datum → Prop
  | list {bracket : Bracket} {items : List Datum} : (∀ item ∈ items, Writable item) → Writable (list bracket items)
  | symbol (name : String) : Writable (symbol name)
  | string (value : String) : Writable (string value)
  | number {value : Number} : value.isWritable → Writable (number value)
  | quoted (datum : Datum) : Writable (quoted datum)

theorem Writable.ofAtom (chars : List Char) : (Datum.ofAtom chars).Writable := by
  rw [Datum.ofAtom]
  split
  next value h => exact .number (isWritable_of_ofWord? h)
  next => exact .symbol _

end Datum

private theorem writable_push {frame : Frame} {datum : Datum} (hd : datum.Writable)
    (hf : ∀ item ∈ frame.items, item.Writable) :
    ∀ item ∈ (frame.push datum).items, item.Writable := by
  have hq : (frame.quotes.foldl (fun d _ => .quoted d) datum).Writable := by
    induction frame.quotes generalizing datum with
    | nil => exact hd
    | cons _ quotes ih => exact ih (.quoted datum)
  exact forall_mem_cons.2 ⟨hq, hf⟩

private theorem writable_assemble {top : Frame} {outer : List Frame} {tokens : List Token}
    (h : assemble top outer tokens = .ok data) (ht : ∀ item ∈ top.items, item.Writable)
    (ho : ∀ frame ∈ outer, ∀ item ∈ frame.items, item.Writable) : ∀ item ∈ data, item.Writable := by
  fun_induction assemble top outer tokens with
  | case1 | case3 | case7 | case8 | case10 | case12 => cases h
  | case2 top =>
    cases h
    exact fun item hi => ht item (mem_reverse.1 hi)
  | case4 top outer chars tokens ih => exact ih h (writable_push (.ofAtom chars) ht) ho
  | case5 top outer chars tokens ih => exact ih h (writable_push (.string _) ht) ho
  | case6 top outer bracket tokens ih => exact ih h (forall_mem_nil _) (forall_mem_cons.2 ⟨ht, ho⟩)
  | case9 top tokens _ _ next outer ih =>
    rw [forall_mem_cons] at ho
    exact ih h (writable_push (.list fun item hi => ht item (mem_reverse.1 hi)) ho.1) ho.2
  | case11 top outer position tokens ih => exact ih h ht ho

private theorem of_ofData {P : Sexp → Prop} {forms : List Sexp}
    (hd : ∀ datum ∈ data, ∀ form, ofDatum datum = .ok form → P form)
    (h : ofDatum.ofData data = .ok forms) : ∀ form ∈ forms, P form := by
  induction data generalizing forms with
  | nil =>
    cases h
    exact forall_mem_nil _
  | cons datum data ih =>
    rw [forall_mem_cons] at hd
    rw [ofDatum.ofData, bind_eq_ok_iff] at h
    obtain ⟨form, hf, h⟩ := h
    obtain ⟨rest, hr, h⟩ := bind_eq_ok_iff.1 h
    cases h
    exact forall_mem_cons.2 ⟨hd.1 form hf, ih hd.2 hr⟩

private theorem isWritable_of_ofDatum {datum : Datum} (hd : datum.Writable) :
    ∀ form, ofDatum datum = .ok form → form.isWritable := by
  induction hd with
  | @list bracket items _ ih =>
    intro form h
    cases bracket with
    | square => cases h
    | round =>
      rw [ofDatum, bind_eq_ok_iff] at h
      obtain ⟨forms, hf, h⟩ := h
      cases h
      rw [isWritable, areWritable_iff]
      exact of_ofData ih hf
  | symbol | string =>
    rintro form ⟨⟩
    rfl
  | number hv =>
    rintro form ⟨⟩
    exact hv
  | quoted => exact nofun

/-- What has been read can be written. -/
theorem isWritable_of_readAll {text : String} {forms : List Sexp} (h : readAll text = .ok forms) :
    ∀ form ∈ forms, form.isWritable := by
  rw [readAll, bind_eq_ok_iff] at h
  obtain ⟨data, hd, hf⟩ := h
  have hw := writable_assemble hd (forall_mem_nil _) (forall_mem_nil _)
  exact of_ofData (fun datum hm => isWritable_of_ofDatum (hw datum hm)) hf

private theorem isWritable_of_readOne {text : String} {form : Sexp} (h : readOne text = .ok form) :
    form.isWritable := by
  rw [readOne, bind_eq_ok_iff] at h
  obtain ⟨forms, hf, h⟩ := h
  split at h
  next =>
    cases h
    exact isWritable_of_readAll hf _ mem_cons_self
  next => cases h

/-- A faithful form can be written exactly if all integers in it can, and then it is read back from what is written of
it. Several forms are read back from what is written of them one after the other. What is read can be written. -/
theorem written_read_back {forms : List Sexp} (hf : ∀ form ∈ forms, Faithful form) :
    (∀ form ∈ forms, (∀ value, Holds value form → value.natAbs < 10 ^ maxIntDigits) →
      ∃ text, form.dump = .ok text ∧ readOne text = .ok form) ∧
    (∀ form ∈ forms, ∀ value, Holds value form → 10 ^ maxIntDigits ≤ value.natAbs → form.dump = .error .longInteger) ∧
    (∀ text, Joined forms text → readAll (String.ofList text) = .ok forms) ∧
    ∀ text form, readOne text = .ok form → ∃ written, form.dump = .ok written := by
  refine ⟨fun form hm hv => ?_, fun form hm value hv hle => ?_, fun text hj => ?_, fun text form hr => ?_⟩
  · have hw := (hf form hm).isWritable_iff.2 hv
    refine ⟨form.text, dump_eq_ok_iff.2 ⟨hw, rfl⟩, ?_⟩
    rw [readOne, text, @readAll_of_reads _ [form] (reads_render (hf form hm) hw)]
    rfl
  · rw [dump_eq_error_iff, (hf form hm).isWritable_iff]
    exact fun h => absurd (h value hv) (Nat.not_lt.2 hle)
  · exact readAll_of_reads (reads_joined (fun form hm => reads_render (hf form hm)) hj)
  · exact ⟨form.text, dump_eq_ok_iff.2 ⟨isWritable_of_readOne hr, rfl⟩⟩

theorem written_read_back_of_two :
    (∃ text, dump (list [symbol "a-b", string "\"(", number (.int (-3)), list []]) = .ok text ∧
      readOne text = .ok (list [symbol "a-b", string "\"(", number (.int (-3)), list []])) ∧
    readAll "() \n\"\"" = .ok [list [], string ""] := by
  have hn : Faithful (list []) := .list (by simp)
  have hs : Faithful (symbol "a-b") := .symbol (by decide) (by decide +kernel)
  have hl : Faithful (list [symbol "a-b", string "\"(", number (.int (-3)), list []]) :=
    .list (by simp [hn, hs, Faithful.int, Faithful.string])
  have hw : isWritable (list [symbol "a-b", string "\"(", number (.int (-3)), list []]) := by decide +kernel
  constructor
  · exact (@written_read_back [_] (by simpa using hl)).1 _ mem_cons_self (hl.isWritable_iff.1 hw)
  · refine (written_read_back (by simp [hn, Faithful.string])).2.2.1 "() \n\"\"".toList ?_
    exact @Joined.cons _ _ _ "()" [' ', '\n'] _ rfl (by simp) (by simp) (@Joined.one _ "\"\"" rfl)

/-- An integer of too many digits is not written, and it is not read from any text. -/
theorem long_integer_not_written : Faithful (number (.int (10 ^ maxIntDigits : Nat))) ∧
    dump (number (.int (10 ^ maxIntDigits : Nat))) = .error .longInteger ∧
    ∀ text, readOne text ≠ .ok (number (.int (10 ^ maxIntDigits : Nat))) := by
  have hn : ¬ isWritable (number (.int (10 ^ maxIntDigits : Nat))) := by
    rw [isWritable, isWritable_int_iff, Int.natAbs_natCast]
    exact Nat.lt_irrefl _
  exact ⟨.int _, dump_eq_error_iff.2 hn, fun text hr => hn (isWritable_of_readOne hr)⟩

end Sexp

end TreeLint
