import TreeLint.Proofs.KnownKinds

/-!
# Maximal munch

How a text is cut into tokens, said without the scan that does it.

* `foremost_best?`: of the rules that match at a position the one with the longest match wins, then the one with the
  higher priority, then the earlier one;
* `runEnd_spec`: where no rule matches, characters of one class are taken up to a place where something changes;
* `maximal_munch`: so it is with all tokens of a source, and the problems are those of the unknown tokens.
-/

namespace TreeLint

open List Grammar

variable {scanners seen : List Scanner} {subject : Array Glyph} {pos stop : Nat} {scanner winner : Scanner}

/-! ## The winner at a position -/

/-- The rule of a scanner wins with a match from one position to another: no rule has a longer match, and of the rules
with a match as long an earlier one has a lower priority and a later one no higher priority. -/
structure Wins (scanners : List Scanner) (subject : Array Glyph) (position stop : Nat) (scanner : Scanner) : Prop where
  reach : scanner.reach? subject position = some stop
  best : ∃ earlier later, scanners = earlier ++ scanner :: later ∧
    (∀ other ∈ earlier, ∀ reached, other.reach? subject position = some reached →
      reached < stop ∨ reached = stop ∧ other.rule.priority < scanner.rule.priority) ∧
    ∀ other ∈ later, ∀ reached, other.reach? subject position = some reached →
      reached < stop ∨ reached = stop ∧ other.rule.priority ≤ scanner.rule.priority

theorem Wins.le (h : Wins scanners subject pos stop winner) (hs : scanner ∈ scanners) {reached : Nat}
    (hr : scanner.reach? subject pos = some reached) :
    reached < stop ∨ reached = stop ∧ scanner.rule.priority ≤ winner.rule.priority := by
  obtain ⟨earlier, later, rfl, he, hl⟩ := h.best
  rcases mem_append.1 hs with hm | hm
  · exact (he scanner hm reached hr).imp_right fun ⟨heq, hlt⟩ => ⟨heq, Int.le_of_lt hlt⟩
  · rcases mem_cons.1 hm with rfl | hm
    · exact .inr ⟨Option.some.inj (hr.symm.trans h.reach), Int.le_refl _⟩
    · exact hl scanner hm reached hr

/-- A winner stays one when a rule is added that does not beat it. -/
private theorem Wins.concat (h : Wins seen subject pos stop winner)
    (hn : ∀ reached, scanner.reach? subject pos = some reached →
      reached < stop ∨ reached = stop ∧ scanner.rule.priority ≤ winner.rule.priority) :
    Wins (seen ++ [scanner]) subject pos stop winner := by
  obtain ⟨earlier, later, rfl, he, hl⟩ := h.best
  refine ⟨h.reach, earlier, later ++ [scanner], by simp, he, fun other ho => ?_⟩
  rcases mem_append.1 ho with ho | ho
  · exact hl other ho
  · rw [mem_singleton.1 ho]
    exact hn

private theorem wins_concat (hr : scanner.reach? subject pos = some stop)
    (ho : ∀ other ∈ seen, ∀ reached, other.reach? subject pos = some reached →
      reached < stop ∨ reached = stop ∧ other.rule.priority < scanner.rule.priority) :
    Wins (seen ++ [scanner]) subject pos stop scanner :=
  ⟨hr, seen, [], rfl, ho, forall_mem_nil _⟩

/-- What is known after a look at some rules: either none of them matches, or one of them wins. -/
structure Foremost (subject : Array Glyph) (position : Nat) (seen : List Scanner) (champion : Option Candidate) :
    Prop where
  none_reaches : champion = none → ∀ scanner ∈ seen, scanner.reach? subject position = none
  wins : ∀ current, champion = some current →
    ∃ winner : Scanner, current.rule = winner.rule ∧ Wins seen subject position current.stop winner

private theorem Foremost.of_wins {current : Candidate} (hr : current.rule = winner.rule)
    (hw : Wins seen subject pos current.stop winner) : Foremost subject pos seen (some current) where
  none_reaches := nofun
  wins _ heq := by
    cases heq
    exact ⟨winner, hr, hw⟩

theorem Foremost.skip {champion : Option Candidate} (h : Foremost subject pos seen champion)
    (hn : scanner.reach? subject pos = none) : Foremost subject pos (seen ++ [scanner]) champion where
  none_reaches hc other ho := by
    rcases mem_append.1 ho with ho | ho
    · exact h.none_reaches hc other ho
    · rw [mem_singleton.1 ho]
      exact hn
  wins current hcr := by
    obtain ⟨winner, hr, hw⟩ := h.wins current hcr
    refine ⟨winner, hr, hw.concat fun reached hrc => ?_⟩
    rw [hn] at hrc
    cases hrc

private theorem Foremost.challenge {current : Candidate} (h : Foremost subject pos seen (some current))
    (hr : scanner.reach? subject pos = some stop) :
    Foremost subject pos (seen ++ [scanner])
      (some (if Candidate.beats ⟨scanner.rule, stop⟩ current then ⟨scanner.rule, stop⟩ else current)) := by
  obtain ⟨winner, hrl, hw⟩ := h.wins current rfl
  by_cases hb : Candidate.beats ⟨scanner.rule, stop⟩ current
  · rw [if_pos hb]
    refine .of_wins rfl (show Wins _ subject pos stop scanner from
      wins_concat hr fun other ho reached hrc => ?_)
    have hle := hw.le ho hrc
    simp only [Candidate.beats, Bool.or_eq_true, Bool.and_eq_true, decide_eq_true_eq, beq_iff_eq, hrl] at hb
    omega
  · rw [if_neg hb]
    refine .of_wins hrl (hw.concat fun reached hrc => ?_)
    obtain rfl := Option.some.inj (hr.symm.trans hrc)
    simp only [Candidate.beats, Bool.or_eq_true, Bool.and_eq_true, decide_eq_true_eq, beq_iff_eq, hrl] at hb
    omega

/-- The scan keeps to the winner among the rules that it has seen. -/
private theorem foremost_bestFrom {champion : Option Candidate} (h : Foremost subject pos seen champion)
    (scanners : List Scanner) :
    Foremost subject pos (seen ++ scanners) (bestFrom subject pos champion scanners) := by
  induction scanners generalizing seen champion with
  | nil => rwa [append_nil, bestFrom]
  | cons scanner scanners ih =>
    rw [append_cons, bestFrom]
    cases hr : scanner.reach? subject pos with
    | none => exact ih (h.skip hr)
    | some stop =>
      cases champion with
      | none =>
        refine ih (.of_wins rfl (wins_concat hr fun other ho reached hrc => ?_))
        rw [h.none_reaches rfl other ho] at hrc
        cases hrc
      | some current => exact ih (h.challenge hr)

theorem foremost_best? (scanners : List Scanner) (subject : Array Glyph) (pos : Nat) :
    Foremost subject pos scanners (best? scanners subject pos) :=
  foremost_bestFrom ⟨fun _ _ h => absurd h not_mem_nil, fun _ h => by cases h⟩ scanners

/-! ## Runs that no rule matches -/

private theorem matchesAt_eq_false_iff :
    matchesAt scanners subject pos = false ↔ ∀ scanner ∈ scanners, scanner.reach? subject pos = none := by
  simp [matchesAt]

theorem runEnd_spec (scanners : List Scanner) (subject : Array Glyph) (blank : Bool) (pos : Nat) :
    (∀ place, pos ≤ place → place < runEnd scanners subject blank pos →
      isBlankAt subject place = blank ∧ matchesAt scanners subject place = false) ∧
    (subject.size ≤ runEnd scanners subject blank pos ∨
      isBlankAt subject (runEnd scanners subject blank pos) = !blank ∨
      matchesAt scanners subject (runEnd scanners subject blank pos)) := by
  fun_induction runEnd with
  | case1 pos _ hg ih =>
    rw [Bool.and_eq_true, beq_iff_eq, Bool.not_eq_true'] at hg
    refine ⟨fun place hle hlt => ?_, ih.2⟩
    rcases Nat.eq_or_lt_of_le hle with rfl | hle
    · exact hg
    · exact ih.1 place hle hlt
  | case2 pos _ he =>
    refine ⟨fun place hle hlt => by omega, .inr ?_⟩
    cases hb : isBlankAt subject pos <;> cases blank <;> simp_all
  | case3 pos hen => exact ⟨fun place hle hlt => by omega, .inl (by omega)⟩

/-- A stretch of characters of one class that no rule matches, up to the end or to a place where a rule matches or the
other class begins. -/
structure Unmatched (scanners : List Scanner) (subject : Array Glyph) (start stop : Nat) (blank : Bool) : Prop where
  none_reaches : ∀ place, start ≤ place → place < stop → ∀ scanner ∈ scanners, scanner.reach? subject place = none
  uniform : ∀ place, start ≤ place → place < stop → isBlankAt subject place = blank
  ends : stop = subject.size ∨ isBlankAt subject stop = !blank ∨
    ∃ scanner ∈ scanners, (scanner.reach? subject stop).isSome

private theorem unmatched_runEnd (hn : best? scanners subject pos = none) (hp : pos < subject.size) :
    Unmatched scanners subject pos (runEnd scanners subject (isBlankAt subject pos) (pos + 1))
      (isBlankAt subject pos) := by
  obtain ⟨hi, he⟩ := runEnd_spec scanners subject (isBlankAt subject pos) (pos + 1)
  have ha : ∀ place, pos ≤ place → place < runEnd scanners subject (isBlankAt subject pos) (pos + 1) →
      isBlankAt subject place = isBlankAt subject pos ∧ matchesAt scanners subject place = false := by
    intro place hle hlt
    rcases Nat.eq_or_lt_of_le hle with rfl | hle
    · exact ⟨rfl, matchesAt_eq_false_iff.2 ((foremost_best? scanners subject pos).none_reaches hn)⟩
    · exact hi place hle hlt
  refine ⟨fun place hle hlt => matchesAt_eq_false_iff.1 (ha place hle hlt).2,
    fun place hle hlt => (ha place hle hlt).1, ?_⟩
  refine he.imp (fun hs => ?_) (Or.imp_right fun hm => ?_)
  · exact Nat.le_antisymm (runEnd_le hp) hs
  · exact any_eq_true.1 hm

/-! ## Tokens -/

/-- A token is made of the text from one place to another: by the rule that wins, or, where none matches, of blanks or
of other characters. -/
inductive Token.Taken (scanners : List Scanner) (subject : Array Glyph) (start stop : Nat) (token : Token) : Prop
  | rule (scanner : Scanner) (wins : Wins scanners subject start stop scanner) (kind : token.kind = scanner.rule.name)
      (trivia : token.trivia = scanner.rule.trivia)
  | blank (unmatched : Unmatched scanners subject start stop true) (kind : token.kind = whitespaceKind)
      (trivia : token.trivia = true)
  | unknown (unmatched : Unmatched scanners subject start stop false) (kind : token.kind = unknownKind)
      (trivia : token.trivia = false)

theorem Token.IsOf.taken {g : Grammar} {src : Source} {token : Token}
    (h : token.IsOf g src (pieceAt scanners subject pos)) (hp : pos < subject.size) :
    token.Taken scanners subject pos (pieceAt scanners subject pos).stop := by
  obtain ⟨hk, -, ht, -, -, -⟩ := h
  unfold pieceAt at hk ht ⊢
  cases hb : best? scanners subject pos with
  | some current =>
    rw [hb] at hk ht
    obtain ⟨winner, hr, hw⟩ := (foremost_best? scanners subject pos).wins current hb
    exact .rule winner hw (hr ▸ hk) (hr ▸ ht)
  | none =>
    rw [hb] at hk ht
    have hu := unmatched_runEnd hb hp
    dsimp only at hk ht ⊢
    cases hbl : isBlankAt subject pos with
    | true =>
      rw [hbl] at hk ht hu
      exact .blank hu hk ht
    | false =>
      rw [hbl] at hk ht hu
      exact .unknown hu hk ht

/-- The unknown tokens are those of characters that are no blanks and that no rule matches. -/
private theorem Token.Taken.kind_eq_unknown_iff {desc : Description} {g : Grammar} {token : Token}
    {start : Nat} (h : token.Taken g.scanners subject start stop) (hb : Built desc g)
    (hlt : start < stop) :
    token.kind = unknownKind ↔ Unmatched g.scanners subject start stop false := by
  cases h with
  | rule scanner hw hk =>
    obtain ⟨earlier, later, hs, -⟩ := hw.best
    have hm : scanner ∈ g.scanners := hs ▸ mem_append_right _ mem_cons_self
    have hn : scanner.rule.name ∈ desc.tokenNames := by
      refine mem_map.2 ⟨scanner.rule, ?_, rfl⟩
      rw [← hb.map_rule_scanners]
      exact mem_map_of_mem hm
    constructor
    · intro hu
      have hr := (hb.tokenNames_checks hn).2 (by rw [← hk, hu]; decide)
      rw [← hk, hu] at hr
      exact absurd hr (by decide)
    · intro hun
      cases (hun.none_reaches start (Nat.le_refl _) hlt scanner hm).symm.trans hw.reach
  | blank hun hk =>
    constructor
    · intro hu
      exact absurd (hk.symm.trans hu) (by decide)
    · intro ho
      cases (hun.uniform start (Nat.le_refl _) hlt).symm.trans (ho.uniform start (Nat.le_refl _) hlt)
  | unknown hun hk => exact ⟨fun _ => hun, fun _ => hk⟩

structure Problem.Reports (token : Token) (problem : Problem) : Prop where
  start_eq : problem.span.start = token.start
  stop_eq : problem.span.stop = token.stop
  lexeme_eq : problem.lexeme = some token.text
  code_eq : problem.code = .unmatchedInput

private theorem lexicalProblems_report {tokens : List Token} (h : ∀ token ∈ tokens, token.start < token.stop) :
    List.Forall₂ Problem.Reports (tokens.filter (·.kind == unknownKind)) (lexicalProblems tokens) := by
  induction tokens with
  | nil => exact .nil
  | cons token tokens ih =>
    have hr := ih (forall_mem_cons.1 h).2
    unfold lexicalProblems at hr ⊢
    cases hk : token.kind == unknownKind with
    | false =>
      rw [filter_cons, if_neg (by simp [hk]), filterMap_cons_none (by simp [Token.problem?, hk])]
      exact hr
    | true =>
      rw [filter_cons, if_pos hk, filterMap_cons_some (by rw [Token.problem?, if_pos hk])]
      refine .cons ⟨rfl, ?_, rfl, rfl⟩ hr
      have hlt := h token mem_cons_self
      exact Int.max_eq_right (by omega)

/-- Tokens between cuts follow each other from the beginning to the end of a source. -/
private theorem Cuts.starts_eq_stops {src : Source} {tokens : List Token} {cut : Nat → Nat} (h : Cuts src tokens cut)
    (hs : src.Encoded) : tokens.map (·.start) ++ [src.size] = 0 :: tokens.map (·.stop) := by
  have ha : ∀ k ≤ tokens.length, (tokens.map (·.start) ++ [src.size])[k]? = some (src.byteAt (cut k)) ∧
      (0 :: tokens.map (·.stop))[k]? = some (src.byteAt (cut k)) := by
    intro k hk
    constructor
    · rcases Nat.lt_or_eq_of_le hk with hlt | rfl
      · rw [getElem?_append_left (by simpa using hlt), getElem?_map, getElem?_eq_getElem hlt,
          Option.map_some, h.start_eq (getElem?_eq_getElem hlt)]
      · rw [getElem?_append_right (by simp), h.length, hs.byteAt_length]
        simp
    · cases k with
      | zero => rw [h.zero, hs.byteAt_zero, getElem?_cons_zero]
      | succ k =>
        rw [getElem?_cons_succ, getElem?_map, getElem?_eq_getElem hk, Option.map_some,
          h.stop_eq (getElem?_eq_getElem hk)]
  refine ext_getElem? fun k => ?_
  rcases Nat.lt_or_ge tokens.length k with hlt | hle
  · rw [getElem?_eq_none (by simp; omega), getElem?_eq_none (by simp; omega)]
  · rw [(ha k hle).1, (ha k hle).2]

/-- The tokens of a source are not empty, and they follow each other from its beginning to its end. Each is made by the
rule with the longest match at its first character, of those with that match the one of the highest priority and then
the first, or it is a stretch of blanks or of other characters that no rule matches. The stretches of other characters
are the unknown tokens, and the problems report them one by one. -/
theorem maximal_munch {description : Description} {grammar : Grammar}
    (hbuild : Grammar.build description = .ok grammar) {source : Source}
    (hsource : (∃ bytes, source = .ofBytes bytes) ∨ ∃ text, source = .ofText text) :
    (tokenize grammar source).map (·.start) ++ [source.size] = 0 :: (tokenize grammar source).map (·.stop) ∧
    (∀ token ∈ tokenize grammar source, token.start < token.stop) ∧
    (∃ cut, Cuts source (tokenize grammar source) cut ∧ ∀ k token, (tokenize grammar source)[k]? = some token →
      token.Taken grammar.scanners source.glyphs (cut k) (cut (k + 1)) ∧
        (token.kind = unknownKind ↔ Unmatched grammar.scanners source.glyphs (cut k) (cut (k + 1)) false)) ∧
    List.Forall₂ Problem.Reports ((tokenize grammar source).filter (·.kind == unknownKind))
      (lexicalProblems (tokenize grammar source)) := by
  have hb := built_of_build hbuild
  have he : source.Encoded := by
    rcases hsource with ⟨bytes, rfl⟩ | ⟨text, rfl⟩
    · exact (Source.coherent_ofBytes bytes).toEncoded
    · exact Source.encoded_ofText text
  obtain ⟨cut, hc, hp⟩ := cuts_tokenize he grammar
  have hw : ∀ {k : Nat}, k < (tokenize grammar source).length → cut (k + 1) ≤ source.text.length := fun hk =>
    hc.length ▸ hc.le hk (Nat.le_refl _)
  have hlt : ∀ token ∈ tokenize grammar source, token.start < token.stop := by
    intro token ht
    obtain ⟨k, hk⟩ := mem_iff_getElem?.1 ht
    have hpl := (List.getElem?_eq_some_iff.1 hk).1
    rw [hc.start_eq hk, hc.stop_eq hk]
    exact he.byteAt_lt (hc.lt hpl) (hw hpl)
  refine ⟨hc.starts_eq_stops he, hlt, ⟨cut, hc, fun k token hk => ?_⟩, lexicalProblems_report hlt⟩
  have hpl := (List.getElem?_eq_some_iff.1 hk).1
  have hs : cut k < source.glyphs.size := by
    rw [he.glyphs_eq, size_toArray]
    exact Nat.lt_of_lt_of_le (hc.lt hpl) (hw hpl)
  have htk := (hp hk).1.taken hs
  rw [(hp hk).2] at htk
  exact ⟨htk, htk.kind_eq_unknown_iff hb (hc.lt hpl)⟩

/-- Bytes with a letter, a blank and a part that is no character. -/
theorem maximal_munch_of_loop : ∃ grammar, Grammar.build Grammar.loop = .ok grammar ∧
    (tokenize grammar (.ofBytes [97, 32, 255])).map (·.start) ++ [3] =
      0 :: (tokenize grammar (.ofBytes [97, 32, 255])).map (·.stop) ∧
    List.Forall₂ Problem.Reports ((tokenize grammar (.ofBytes [97, 32, 255])).filter (·.kind == unknownKind))
      (lexicalProblems (tokenize grammar (.ofBytes [97, 32, 255]))) := by
  obtain ⟨grammar, hb⟩ := exists_build_loop
  obtain ⟨hf, -, -, hr⟩ := maximal_munch hb (.inl ⟨[97, 32, 255], rfl⟩)
  exact ⟨grammar, hb, hf, hr⟩

end TreeLint
