import Mathlib.Data.Prod.Lex
import Mathlib.Order.BooleanAlgebra.Basic
import TreeLint.Proofs.CrossedGaps
import TreeLint.Proofs.TokenTiling
import TreeLint.Tree.Basic

/-!
# The problems of a parse

The problems of a source are listed by where they start: those of its tokens, one for each gap in what was parsed, and at
most one for the place where the parser gave up. Within each of these three sorts the order in which they were found is
the order of the list.

* `Forest.parse_reported`: the problems of a forest, as its gaps and its unparsed rest have it;
* `filter_mergeSort`: sorting keeps the order of what is in order already;
* `Tree.filter_problems_parse`: the problems of a tree by their sorts.
-/

namespace TreeLint

open List

/-! ## Sorts of problems -/

namespace Problem

def range (problem : Problem) : Int × Int :=
  (problem.span.start, problem.span.stop)

/-- Whether a problem is about text that no token rule matches. -/
def isLexical (problem : Problem) : Bool :=
  problem.lexeme.isSome

/-- Whether a problem is about tokens that were skipped before the parser went on. -/
def isSkip (problem : Problem) : Bool :=
  !problem.isLexical && !problem.terminal

variable {first second third : Problem}

private theorem precedes_iff : first.precedes second ↔ first.span.start < second.span.start ∨
    first.span.start = second.span.start ∧ (first.span.stop < second.span.stop ∨
      first.span.stop = second.span.stop ∧ (first.terminal = false ∨ second.terminal = true)) := by
  simp [precedes]

/-- By what problems are sorted, in the order in which it counts. -/
def place (problem : Problem) : Int ×ₗ Int ×ₗ Bool :=
  toLex (problem.span.start, toLex (problem.span.stop, problem.terminal))

theorem precedes_iff_le : first.precedes second ↔ first.place ≤ second.place := by
  simp only [precedes_iff, place, Prod.Lex.toLex_le_toLex]
  cases first.terminal <;> cases second.terminal <;> simp [Bool.le_iff_imp]

theorem precedes_total (first second : Problem) : first.precedes second || second.precedes first := by
  rw [Bool.or_eq_true, precedes_iff_le, precedes_iff_le]
  exact le_total _ _

theorem precedes_trans (h : first.precedes second) (h' : second.precedes third) : first.precedes third :=
  precedes_iff_le.2 ((precedes_iff_le.1 h).trans (precedes_iff_le.1 h'))

end Problem

variable {g : Grammar} {tokens : List Token} {forest : Forest}

/-- Sorting keeps the order of those entries that are in order already. -/
theorem filter_mergeSort {α : Type} (le : α → α → Bool) (ht : ∀ a b c : α, le a b → le b c → le a c)
    (htt : ∀ a b : α, le a b || le b a) {p : α → Bool} {entries : List α}
    (hs : (entries.filter p).Pairwise fun a b => le a b) : (entries.mergeSort le).filter p = entries.filter p := by
  have hsb : (entries.filter p).Sublist (entries.mergeSort le) :=
    sublist_mergeSort ht htt hs filter_sublist
  have hk : (entries.filter p).Sublist ((entries.mergeSort le).filter p) := by
    have := hsb.filter p
    rwa [filter_filter, show (fun entry => p entry && p entry) = p by simp] at this
  exact (hk.eq_of_length ((mergeSort_perm entries le).filter p).length_eq.symm).symm

namespace Forest

open Chart (Gap gapsBetween)

variable {cfg : Config}

/-! ## Problems of forests -/

def skipProblems (grammar : Grammar) (tokens : List Token) (forest : Forest) : List Problem :=
  (gapsBetween forest.chart.gaps 0 (forest.parsed.getD 0)).map (gapProblem grammar (meaningful tokens) forest.chart)

/-- Which problems are reported: those of the gaps in what was parsed and, unless everything was parsed, one for the
rest. -/
inductive Reported (grammar : Grammar) (tokens : List Token) (forest : Forest) : List Problem → Prop
  | complete : forest.problems = skipProblems grammar tokens forest → forest.unparsedFrom = none →
      Reported grammar tokens forest []
  | partly : forest.problems = skipProblems grammar tokens forest ++
      [terminalProblem grammar (meaningful tokens) forest.chart (forest.parsed.getD 0)] →
        forest.unparsedFrom = (if (meaningful tokens).size == 0 then none else some (forest.parsed.getD 0)) →
          (0 < (meaningful tokens).size → forest.parsed.getD 0 < (meaningful tokens).size) →
            Reported grammar tokens forest
              [terminalProblem grammar (meaningful tokens) forest.chart (forest.parsed.getD 0)]

private theorem gapsBetween_zero (gaps : List Gap) (stop : Nat) :
    gapsBetween gaps 0 stop = gaps.filter fun gap => gap.start < stop := by
  rw [gapsBetween]
  exact filter_congr fun gap _ => by simp

/-- Where not everything was accepted, something is left. -/
private theorem lastAccepted?_lt {chart : Chart} {count limit : Nat} (hl : limit ≤ count) (hc : 0 < count)
    (hn : ¬ (limit = count ∧ chart.accepts g count)) : (chart.lastAccepted? g limit).getD 0 < count := by
  cases hls : chart.lastAccepted? g limit with
  | none => exact hc
  | some stop =>
    obtain ⟨ha, hle⟩ := Chart.accepts_of_lastAccepted? hls
    rw [Option.getD_some]
    by_contra hlt
    obtain rfl : stop = count := by omega
    exact hn ⟨by omega, ha⟩

theorem parse_reported (hg : g.Tabulated) (tokens : List Token) (cfg : Config) :
    ∃ ending, Reported g tokens (parse g tokens cfg) ending := by
  have hf := faithful_parse hg tokens cfg
  cases parse_outcome g tokens cfg with
  | complete _ _ hp hu hpr =>
    refine ⟨_, .complete ?_ hu⟩
    rw [hpr, skipProblems, hp, Option.getD_some, gapsBetween_zero, filter_eq_self.2]
    intro gap hgp
    obtain ⟨hlt, hs, -⟩ := hf.gap_blocked gap hgp
    rw [size_meaningfulKinds] at hs
    exact decide_eq_true (by omega)
  | partly hn hl hu hpr =>
    refine ⟨_, .partly (by rw [hpr, skipProblems, gapsBetween_zero]) hu fun hpo => ?_⟩
    have hst : ∀ pos, (parse g tokens cfg).chart.stopped = some pos →
        pos < (meaningful tokens).size := by
      intro pos hsto
      rw [← size_meaningfulKinds]
      exact (hf.stop_blocked hsto).1
    rw [hl]
    cases hsto : (parse g tokens cfg).chart.stopped with
    | none => exact lastAccepted?_lt (Nat.le_refl _) hpo fun h => hn ⟨hsto, h.2⟩
    | some pos =>
      have hlt := hst pos hsto
      exact lastAccepted?_lt (Nat.le_of_lt hlt) hpo fun h => absurd h.1 (Nat.ne_of_lt hlt)

end Forest

/-! ## Tokens in order -/

structure Token.InOrder (tokens : List Token) : Prop where
  apart : tokens.Pairwise fun first second => first.stop ≤ second.start
  proper : ∀ token ∈ tokens, token.start < token.stop

theorem Cuts.inOrder {src : Source} {cut : Nat → Nat} (h : Cuts src tokens cut)
    (hs : src.Coherent) : Token.InOrder tokens where
  apart := by
    rw [pairwise_iff_getElem]
    intro i j hi hj hij
    rw [h.stop_eq (getElem?_eq_getElem hi), h.start_eq (getElem?_eq_getElem hj)]
    have hc := h.le (show i + 1 ≤ j by omega) (Nat.le_of_lt hj)
    have he := h.le (Nat.le_of_lt hj) (Nat.le_refl _)
    rw [h.length] at he
    rcases Nat.eq_or_lt_of_le hc with heq | hlt
    · rw [heq]
    · exact Nat.le_of_lt (hs.byteAt_lt hlt he)
  proper token ht := by
    obtain ⟨k, hk⟩ := mem_iff_getElem?.1 ht
    have hlt := (List.getElem?_eq_some_iff.1 hk).1
    have he := h.le (show k + 1 ≤ tokens.length from hlt) (Nat.le_refl _)
    rw [h.length] at he
    rw [h.start_eq hk, h.stop_eq hk]
    exact hs.byteAt_lt (h.lt hlt) he

namespace Token.InOrder

variable {i j : Nat}

theorem filter (h : InOrder tokens) (p : Token → Bool) : InOrder (tokens.filter p) where
  apart := h.apart.filter p
  proper token ht := h.proper token (mem_filter.1 ht).1

private theorem stop_le_start (h : InOrder tokens) (hij : i < j) (hj : j < tokens.length) :
    (tokens.toArray.getD i default).stop ≤ (tokens.toArray.getD j default).start := by
  have hp := pairwise_iff_getElem.1 h.apart i j (by omega) hj hij
  simpa [Array.getD_eq_getD_getElem?, hj, show i < tokens.length by omega] using hp

theorem start_lt_stop (h : InOrder tokens) (hi : i < tokens.length) :
    (tokens.toArray.getD i default).start < (tokens.toArray.getD i default).stop := by
  have hp := h.proper _ (getElem_mem hi)
  simpa [Array.getD_eq_getD_getElem?, hi] using hp

private theorem start_lt_stop_of_le (h : InOrder tokens) (hij : i ≤ j) (hj : j < tokens.length) :
    (tokens.toArray.getD i default).start < (tokens.toArray.getD j default).stop := by
  rcases Nat.eq_or_lt_of_le hij with rfl | hij
  · exact h.start_lt_stop hj
  · have := h.stop_le_start hij hj
    have := h.start_lt_stop (show i < tokens.length by omega)
    have := h.start_lt_stop hj
    omega

end Token.InOrder

theorem inOrder_tokenize {src : Source} (hs : src.Coherent) (g : Grammar) :
    Token.InOrder (tokenize g src) := by
  obtain ⟨cut, hc, -⟩ := cuts_tokenize hs.toEncoded g
  exact hc.inOrder hs

/-! ## Problems in order -/

namespace Forest

open Chart (Gap gapsBetween)

variable {chart : Chart} {gaps : List Gap} {gap : Gap} {start : Nat}

/-- A gap problem reaches from the start of the first skipped token to the end of the last. -/
theorem range_gapProblem (h : Token.InOrder tokens) (hlt : gap.start < gap.stop) (hs : gap.stop ≤ tokens.length) :
    (gapProblem g tokens.toArray chart gap).range = (((tokens.toArray.getD gap.start default).start : Int),
        ((tokens.toArray.getD (gap.stop - 1) default).stop : Int)) := by
  have := h.start_lt_stop_of_le (show gap.start ≤ gap.stop - 1 by omega) (by omega)
  simp only [Problem.range, gapProblem, tokenSpan, Span.between, Prod.mk.injEq, true_and]
  omega

theorem span_terminalProblem (g : Grammar) (tokens : Array Token) (chart : Chart) (start : Nat) :
    (terminalProblem g tokens chart start).span = (if tokens.isEmpty then Span.between 0 0 1 1
      else tokenSpan (tokens.getD start default) (tokens.getD (tokens.size - 1) default)) := by
  unfold terminalProblem
  cases chart.stopped <;> rfl

/-- The terminal problem of a parse that leaves tokens reaches from the first of them to the end of the last. -/
theorem range_terminalProblem (h : Token.InOrder tokens) (hlt : start < tokens.length) :
    (terminalProblem g tokens.toArray chart start).range = (((tokens.toArray.getD start default).start : Int),
        ((tokens.toArray.getD (tokens.length - 1) default).stop : Int)) := by
  have := h.start_lt_stop_of_le (show start ≤ tokens.length - 1 by omega) (by omega)
  have hs : tokens.toArray.isEmpty = false := by
    rw [isEmpty_toArray, isEmpty_eq_false_iff]
    rintro rfl
    exact absurd hlt (Nat.not_lt_zero _)
  rw [Problem.range, span_terminalProblem, hs, if_neg Bool.false_ne_true]
  simp only [tokenSpan, Span.between, size_toArray, Prod.mk.injEq, true_and]
  omega

private theorem pairwise_precedes_gapProblem (h : Token.InOrder tokens) (hg : Chart.Ordered gaps)
    (hs : ∀ gap ∈ gaps, gap.stop ≤ tokens.length) :
    (gaps.map (gapProblem g tokens.toArray chart)).Pairwise fun first second => first.precedes second := by
  rw [pairwise_map]
  refine hg.apart.imp_of_mem ?_
  intro first second hf hsc ha
  have hlt := hg.proper first hf
  have hlt' := hg.proper second hsc
  have hle := hs second hsc
  have hb := h.stop_le_start (show first.start < second.start by omega) (by omega)
  have hp := h.start_lt_stop (show first.start < tokens.length by omega)
  rw [Problem.precedes_iff]
  refine .inl ?_
  simp only [gapProblem, tokenSpan, Span.between]
  omega

end Forest

private theorem pairwise_precedes_lexicalProblems (h : Token.InOrder tokens) :
    (lexicalProblems tokens).Pairwise fun first second => first.precedes second := by
  rw [lexicalProblems, pairwise_filterMap]
  refine h.apart.imp_of_mem ?_
  intro first second hf hs ha problem hp other ho
  have hpr := h.proper first hf
  unfold Token.problem? at hp ho
  split at hp
  · split at ho
    · cases hp
      cases ho
      rw [Problem.precedes_iff]
      refine .inl ?_
      simp only [Span.between]
      omega
    · cases ho
  · cases hp

private theorem isLexical_of_mem_lexicalProblems {problem : Problem}
    (h : problem ∈ lexicalProblems tokens) : problem.isLexical = true ∧ problem.terminal = false := by
  obtain ⟨token, -, hp⟩ := mem_filterMap.1 h
  unfold Token.problem? at hp
  split at hp
  · cases hp
    exact ⟨rfl, rfl⟩
  · cases hp

private theorem Problem.filter_mergeSort_precedes {lexical skips ending : List Problem}
    (hl : ∀ problem ∈ lexical, problem.isLexical = true ∧ problem.terminal = false)
    (hs : ∀ problem ∈ skips, problem.isLexical = false ∧ problem.terminal = false)
    (he : ∀ problem ∈ ending, problem.isLexical = false ∧ problem.terminal = true)
    (hlx : lexical.Pairwise fun first second => first.precedes second)
    (hsk : skips.Pairwise fun first second => first.precedes second) (ho : ending.length ≤ 1) :
    ((lexical ++ (skips ++ ending)).mergeSort precedes).filter isSkip = skips ∧
      ((lexical ++ (skips ++ ending)).mergeSort precedes).filter (·.terminal) = ending ∧
      ((lexical ++ (skips ++ ending)).mergeSort precedes).filter isLexical = lexical := by
  have ha : ∀ {problems : List Problem} {p : Problem → Bool}, (∀ problem ∈ problems, p problem = true) →
      problems.filter p = problems := fun h => filter_eq_self.2 h
  have hn : ∀ {problems : List Problem} {p : Problem → Bool}, (∀ problem ∈ problems, p problem = false) →
      problems.filter p = [] := fun h => filter_eq_nil_iff.2 fun problem hp => by simp [h problem hp]
  have hsr : ∀ {p : Problem → Bool} {kept : List Problem}, (lexical ++ (skips ++ ending)).filter p = kept →
      (kept.Pairwise fun first second => first.precedes second) →
        ((lexical ++ (skips ++ ending)).mergeSort precedes).filter p = kept := by
    rintro p kept rfl hso
    exact filter_mergeSort precedes (fun _ _ _ => precedes_trans) precedes_total hso
  refine ⟨hsr ?_ hsk, hsr ?_ ?_, hsr ?_ hlx⟩
  · rw [filter_append, filter_append, hn, ha, hn, nil_append, append_nil]
    · exact fun problem hp => by simp [isSkip, he problem hp]
    · exact fun problem hp => by simp [isSkip, hs problem hp]
    · exact fun problem hp => by simp [isSkip, hl problem hp]
  · rw [filter_append, filter_append, hn, hn, ha, nil_append, nil_append]
    · exact fun problem hp => (he problem hp).2
    · exact fun problem hp => (hs problem hp).2
    · exact fun problem hp => (hl problem hp).2
  · cases ending with
    | nil => exact .nil
    | cons problem ending =>
      obtain rfl : ending = [] := eq_nil_of_length_eq_zero (by simpa using ho)
      exact pairwise_singleton ..
  · rw [filter_append, filter_append, ha, hn, hn, append_nil, append_nil]
    · exact fun problem hp => (he problem hp).1
    · exact fun problem hp => (hs problem hp).1
    · exact fun problem hp => (hl problem hp).1

namespace Forest

variable {ending : List Problem}

private theorem Reported.problems_eq (h : Reported g tokens forest ending) :
    forest.problems = skipProblems g tokens forest ++ ending := by
  cases h with
  | complete hp => rw [hp, append_nil]
  | partly hp => exact hp

theorem Reported.length_le (h : Reported g tokens forest ending) : ending.length ≤ 1 := by
  cases h with
  | complete => exact Nat.zero_le _
  | partly => exact Nat.le_refl _

private theorem Reported.sort_of_mem (h : Reported g tokens forest ending) {problem : Problem} (hm : problem ∈ ending) :
    problem.isLexical = false ∧ problem.terminal = true := by
  cases h with
  | complete => cases hm
  | partly =>
    rw [mem_singleton] at hm
    subst hm
    unfold terminalProblem
    cases forest.chart.stopped <;> exact ⟨rfl, rfl⟩

end Forest

namespace Tree

variable {src : Source} {cfg : Config} {ending : List Problem}

/-- The problems of a tree by their sorts: of gaps in what was parsed, of an unparsed rest, and of tokens. -/
theorem filter_problems_parse (hg : g.Tabulated) (hs : src.Coherent) (path : String)
    (he : Forest.Reported g (tokenize g src)
      (Forest.parse g (tokenize g src) cfg) ending) :
    (parse g src path cfg).problems.filter Problem.isSkip = Forest.skipProblems g
        (tokenize g src) (Forest.parse g (tokenize g src) cfg) ∧
      (parse g src path cfg).problems.filter (·.terminal) = ending ∧
      (parse g src path cfg).problems.filter Problem.isLexical =
        lexicalProblems (tokenize g src) := by
  have ho := inOrder_tokenize hs g
  have hf := Forest.faithful_parse hg (tokenize g src) cfg
  have hgp := Forest.ordered_gaps g (tokenize g src) cfg
  have hp : (parse g src path cfg).problems = (lexicalProblems (tokenize g src) ++
      (Forest.skipProblems g (tokenize g src)
        (Forest.parse g (tokenize g src) cfg) ++ ending)).mergeSort Problem.precedes := by
    rw [← he.problems_eq]
    rfl
  rw [hp]
  refine Problem.filter_mergeSort_precedes (fun _ => isLexical_of_mem_lexicalProblems) ?_ (fun _ => he.sort_of_mem)
    (pairwise_precedes_lexicalProblems ho) ?_ he.length_le
  · intro problem hpr
    obtain ⟨gap, -, rfl⟩ := mem_map.1 hpr
    exact ⟨rfl, rfl⟩
  · refine Forest.pairwise_precedes_gapProblem (ho.filter _) (hgp.sublist filter_sublist) ?_
    intro gap hga
    have hsz := (hf.gap_blocked gap (mem_filter.1 hga).1).2.1
    rw [Forest.size_meaningfulKinds] at hsz
    exact Nat.le_of_lt hsz

end Tree

end TreeLint
