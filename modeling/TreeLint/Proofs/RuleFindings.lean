import Mathlib
import TreeLint.Proofs.RuleIndependence

/-!
# The diagnostics of one rule

A rule looks at its matches one after the other until it has given as many findings as it may.

* `Lint.Examined`: the matches that are looked at, said without the run;
* `Lint.goThrough_eq`: all of these are judged, and then the guards that have failed count;
* `Lint.goThrough_hide`: to hide findings is to leave them out, where there is no limit;
* `Lint.Run.findings_exact`: what a rule gives on a tree.
-/

namespace TreeLint

open List Predicate

private theorem map_eq_ok_iff {ε α β : Type} {change : α → β} {outcome : Except ε α} {value : β} :
    outcome.map change = .ok value ↔ ∃ found, outcome = .ok found ∧ change found = value := by
  cases outcome <;> simp [Except.map]

private theorem mapM_eq_ok_iff {ε α β : Type} {f : α → Except ε β} {items : List α} {values : List β} :
    items.mapM f = .ok values ↔ List.Forall₂ (fun item value => f item = .ok value) items values := by
  induction items generalizing values with
  | nil => simp [pure, Except.pure, eq_comm]
  | cons item items ih =>
    rw [mapM_cons, bind_eq_ok_iff]
    constructor
    · rintro ⟨value, hv, h⟩
      obtain ⟨others, ho, h⟩ := bind_eq_ok_iff.mp h
      obtain rfl := Except.ok.inj h
      exact .cons hv (ih.mp ho)
    · intro h
      cases h with
      | cons hv ho => exact ⟨_, hv, bind_eq_ok_iff.mpr ⟨_, ih.mpr ho, rfl⟩⟩

private theorem exists_mapM_eq_ok_iff {ε α β : Type} {f : α → Except ε β} {items : List α} :
    (∃ values, items.mapM f = .ok values) ↔ ∀ item ∈ items, ∃ value, f item = .ok value := by
  induction items with
  | nil => exact ⟨fun _ => nofun, fun _ => ⟨[], rfl⟩⟩
  | cons item items ih =>
    rw [forall_mem_cons, ← ih]
    simp only [mapM_eq_ok_iff, forall₂_cons_left_iff]
    grind

namespace Lint

/-! ## The matches that are looked at -/

section Examined

variable {α : Type} {limit : Option Int} {kept : α → Bool} {count : Nat} {item : α} {all seen : List α}

/-- After `count` findings, `seen` is the shortest beginning of a list with all the findings that the limit allows, or
the whole list where there is no such beginning. -/
structure Examined (limit : Option Int) (kept : α → Bool) (count : Nat) (all seen : List α) : Prop where
  starts : seen <+: all
  shortest : ∀ before, before <+: seen → before ≠ seen → isFull limit (count + before.countP kept) = false
  complete : isFull limit (count + seen.countP kept) = true ∨ seen = all

namespace Examined

theorem nil : Examined limit kept count [] [] where
  starts := prefix_rfl
  shortest _ hb hne := absurd (prefix_nil.mp hb) hne
  complete := .inr rfl

/-- One more item in front is looked at if the limit is not reached before it. -/
theorem cons (ho : isFull limit count = false) (h : Examined limit kept (count + if kept item then 1 else 0) all seen) :
    Examined limit kept count (item :: all) (item :: seen) where
  starts := cons_prefix_cons.mpr ⟨rfl, h.starts⟩
  shortest before hb hne := by
    cases before with
    | nil => exact ho
    | cons first before =>
      obtain ⟨rfl, hr⟩ := cons_prefix_cons.mp hb
      have ho := h.shortest before hr fun heq => hne (heq ▸ rfl)
      rwa [countP_cons, Nat.add_comm (before.countP kept), ← Nat.add_assoc]
  complete := by
    rw [countP_cons, Nat.add_comm (seen.countP kept), ← Nat.add_assoc]
    exact h.complete.imp_right (congrArg (item :: ·))

theorem last (ho : isFull limit count = false) (hk : kept item = true)
    (hf : isFull limit (count + 1) = true) : Examined limit kept count (item :: all) [item] where
  starts := cons_prefix_cons.mpr ⟨rfl, nil_prefix⟩
  shortest before hb hne := by
    rcases prefix_cons_iff.mp hb with rfl | ⟨rest, rfl, hr⟩
    · exact ho
    · exact absurd (prefix_nil.mp hr ▸ rfl) hne
  complete := .inl (by rwa [countP_singleton, if_pos hk])

/-- What stands before the first finding is looked at. -/
theorem prefix_of_unkept (h : Examined limit kept count all seen) (ho : isFull limit count = false) {before : List α}
    (hb : before <+: all) (hn : ∀ item ∈ before, kept item = false) : before <+: seen := by
  rcases prefix_or_prefix_of_prefix hb h.starts with hbs | hsb
  · exact hbs
  · have hc : seen.countP kept = 0 := countP_eq_zero.mpr fun item hi => Bool.eq_false_iff.mp (hn item (hsb.subset hi))
    rcases h.complete with hf | rfl
    · rw [hc, Nat.add_zero, ho] at hf
      cases hf
    · exact hb

end Examined

/-- The first items, as many as the limit allows. -/
def atMost (limit : Option Int) (items : List α) : List α :=
  limit.elim items fun limit => items.take limit.toNat

/-- The findings among the items that are looked at are the first of all findings. -/
private theorem Examined.filter_eq (h : Examined limit kept 0 all seen) :
    seen.filter kept = atMost limit (all.filter kept) := by
  obtain ⟨rest, rfl⟩ := h.starts
  cases limit with
  | none =>
    rcases h.complete with hf | ha
    · cases hf
    · rw [← ha]
      rfl
  | some limit =>
    have hle : seen.countP kept ≤ limit.toNat := by
      rcases eq_nil_or_concat' seen with rfl | ⟨before, item, rfl⟩
      · exact Nat.zero_le _
      · have ho := h.shortest before (prefix_append _ _) (by simp)
        have hon : List.countP kept [item] ≤ 1 := countP_le_length
        simp only [isFull, Nat.zero_add, decide_eq_false_iff_not] at ho
        rw [countP_append]
        omega
    change seen.filter kept = ((seen ++ rest).filter kept).take limit.toNat
    rcases h.complete with hf | ha
    · simp only [isFull, Nat.zero_add, decide_eq_true_eq] at hf
      have hl : (seen.filter kept).length = limit.toNat := by
        rw [← countP_eq_length_filter]
        omega
      rw [filter_append, take_left' hl]
    · rw [← ha, take_of_length_le (by rwa [← countP_eq_length_filter])]

end Examined

/-! ## Going through matches -/

/-- A match with the guards that had failed when it was found. -/
abbrev Sighting := Match × List Mishap

abbrev Judging := Match → Except Breakdown Verdict

private theorem warningKind_ne : Diagnostic.predicateWarningKind ≠ Diagnostic.lintKind := by decide

namespace Verdict

def finding? : Verdict → Option Diagnostic
  | .reported diagnostic => some diagnostic
  | _ => none

def mishap? : Verdict → Option Mishap
  | .failed mishap => some mishap
  | _ => none

/-- What is given for a verdict, where only the first failure is warned of. -/
def given (warn : Mishap → Diagnostic) (warned : Bool) : Verdict → List Diagnostic
  | .reported diagnostic => [diagnostic]
  | .failed mishap => if warned then [] else [warn mishap]
  | .dropped => []

def givenAll (warn : Mishap → Diagnostic) : Bool → List Verdict → List Diagnostic
  | _, [] => []
  | warned, verdict :: verdicts =>
    verdict.given warn warned ++ givenAll warn (warned || verdict.mishap?.isSome) verdicts

end Verdict

section GoThrough

variable {judge : Judging} {warn : Mishap → Diagnostic} {limit : Option Int}
  {last : Except Breakdown (List Mishap)} {count : Nat} {warned : Bool} {verdict : Verdict}
  {entry : Sighting} {all rest : List Sighting}

/-- A verdict after which there may be more adds what is given for it. -/
private theorem goThrough_cons (hv : judge entry.1 = .ok verdict)
    (ho : isFull limit (count + if verdict.finding?.isSome then 1 else 0) = false) :
    goThrough judge warn limit last count warned (entry :: rest) =
      (goThrough judge warn limit last (count + if verdict.finding?.isSome then 1 else 0)
        (warned || verdict.mishap?.isSome) rest).map fun outcome =>
          { outcome with diagnostics := verdict.given warn warned ++ outcome.diagnostics } := by
  rw [goThrough, hv]
  cases verdict with
  | dropped =>
    change goThrough judge warn limit last count warned rest = _
    rw [show (warned || Option.isSome (Verdict.mishap? .dropped)) = warned from Bool.or_false warned]
    change _ = (goThrough judge warn limit last count warned rest).map _
    cases goThrough judge warn limit last count warned rest <;> rfl
  | failed mishap =>
    rw [show (warned || Option.isSome (Verdict.mishap? (.failed mishap))) = true from Bool.or_true warned]
    change (goThrough judge warn limit last count true rest >>= _) =
      (goThrough judge warn limit last count true rest).map _
    cases goThrough judge warn limit last count true rest <;> cases warned <;> rfl
  | reported diag =>
    change isFull limit (count + 1) = false at ho
    rw [show (warned || Option.isSome (Verdict.mishap? (.reported diag))) = warned from Bool.or_false warned]
    change (if isFull limit (count + 1) then _ else goThrough judge warn limit last (count + 1) warned rest >>= _) =
      (goThrough judge warn limit last (count + 1) warned rest).map _
    rw [ho]
    cases goThrough judge warn limit last (count + 1) warned rest <;> rfl

/-- The matches that are looked at after `count` findings, and the guards that have failed by then. -/
def examine (limit : Option Int) (kept : Sighting → Bool) (last : Except Breakdown (List Mishap)) :
    Nat → List Sighting → List Sighting × Except Breakdown (List Mishap)
  | _, [] => ([], last)
  | count, entry :: rest =>
    if isFull limit (count + if kept entry then 1 else 0) then ([entry], .ok entry.2)
    else
      let later := examine limit kept last (count + if kept entry then 1 else 0) rest
      (entry :: later.1, later.2)

section

variable {kept : Sighting → Bool}

private theorem examine_of_full (hf : isFull limit (count + if kept entry then 1 else 0) = true) :
    examine limit kept last count (entry :: rest) = ([entry], .ok entry.2) := by
  rw [examine, if_pos hf]

private theorem examine_of_open (hn : isFull limit (count + if kept entry then 1 else 0) = false) :
    examine limit kept last count (entry :: rest) =
      (entry :: (examine limit kept last (count + if kept entry then 1 else 0) rest).1,
        (examine limit kept last (count + if kept entry then 1 else 0) rest).2) := by
  rw [examine, if_neg (by simp [hn])]

private theorem kept_of_full (ho : isFull limit count = false)
    (hf : isFull limit (count + if kept entry then 1 else 0) = true) : kept entry = true := by
  by_contra hk
  rw [if_neg hk, Nat.add_zero, ho] at hf
  cases hf

private theorem examined_examine (ho : isFull limit count = false) :
    Examined limit kept count all (examine limit kept last count all).1 := by
  induction all generalizing count with
  | nil => exact .nil
  | cons entry rest ih =>
    cases hn : isFull limit (count + if kept entry then 1 else 0) with
    | true =>
      have hk := kept_of_full ho hn
      rw [examine_of_full hn]
      exact .last ho hk (by rwa [if_pos hk] at hn)
    | false =>
      rw [examine_of_open hn]
      exact .cons ho (ih hn)

/-- Where the limit is reached, the guards count that had failed at the last match. -/
private theorem ended_examine (ho : isFull limit count = false) : (examine limit kept last count all).2 =
      if isFull limit (count + (examine limit kept last count all).1.countP kept) then
        .ok (((examine limit kept last count all).1.getLast?.map (·.2)).getD [])
      else last := by
  induction all generalizing count with
  | nil => exact (if_neg (by simp [examine, ho])).symm
  | cons entry rest ih =>
    cases hn : isFull limit (count + if kept entry then 1 else 0) with
    | true =>
      rw [examine_of_full hn, countP_singleton, if_pos hn]
      rfl
    | false =>
      rw [examine_of_open hn, countP_cons, Nat.add_comm (List.countP _ _), ← Nat.add_assoc]
      refine (ih hn).trans (ite_congr rfl (fun hf => ?_) fun _ => rfl)
      -- if the limit is reached later on, there is a last match later on
      rw [getLast?_cons_of_ne_nil]
      intro hnl
      rw [hnl, countP_nil, Nat.add_zero, hn] at hf
      cases hf

end

/-- All matches that are looked at are judged, and then the guards count. -/
theorem goThrough_eq {kept : Sighting → Bool}
    (hk : ∀ entry verdict, judge entry.1 = .ok verdict → kept entry = verdict.finding?.isSome)
    (ho : isFull limit count = false) :
    goThrough judge warn limit last count warned all =
      ((examine limit kept last count all).1.mapM (judge ·.1)) >>= fun verdicts =>
        (examine limit kept last count all).2.map fun mishaps =>
          { diagnostics := Verdict.givenAll warn warned verdicts,
            warned := warned || verdicts.any (·.mishap?.isSome), mishaps } := by
  induction all generalizing count warned with
  | nil => cases last <;> simp [goThrough, examine, Verdict.givenAll, Except.map, bind, Except.bind, pure, Except.pure]
  | cons entry rest ih =>
    cases hv : judge entry.1 with
    | error breakdown =>
      have hr : goThrough judge warn limit last count warned (entry :: rest) = .error breakdown := by
        rw [goThrough, hv]
        rfl
      cases hn : isFull limit (count + if kept entry then 1 else 0) with
      | true => rw [hr, examine_of_full hn, mapM_cons, hv]; rfl
      | false => rw [hr, examine_of_open hn, mapM_cons, hv]; rfl
    | ok verdict =>
      cases hn : isFull limit (count + if kept entry then 1 else 0) with
      | true =>
        rw [examine_of_full hn, mapM_cons, hv]
        have hs := kept_of_full ho hn
        rw [if_pos hs] at hn
        rw [hk entry verdict hv] at hs
        cases verdict with
        | dropped | failed => cases hs
        | reported diag =>
          rw [goThrough, hv]
          simp [hn, bind, Except.bind, pure, Except.pure, Except.map, Verdict.givenAll, Verdict.given, Verdict.mishap?]
      | false =>
        rw [examine_of_open hn, mapM_cons, hv]
        rw [hk entry verdict hv] at hn ⊢
        rw [goThrough_cons hv hn, ih hn]
        generalize examine limit kept last _ rest = later
        cases later.1.mapM (judge ·.1) with
        | error => rfl
        | ok verdicts =>
          cases later.2 with
          | error => rfl
          | ok mishaps => simp [bind, Except.bind, pure, Except.pure, Except.map, Verdict.givenAll, Bool.or_assoc]

/-- Of what is given for verdicts, the findings are theirs, and there is a warning about the first failure only. -/
private theorem filter_givenAll (hw : ∀ mishap, (warn mishap).kind = Diagnostic.predicateWarningKind)
    {verdicts : List Verdict}
    (hl : ∀ diag ∈ verdicts.filterMap Verdict.finding?, diag.kind = Diagnostic.lintKind) :
    (Verdict.givenAll warn warned verdicts).filter (·.kind == Diagnostic.lintKind) =
        verdicts.filterMap Verdict.finding? ∧
      (Verdict.givenAll warn warned verdicts).filter (·.kind != Diagnostic.lintKind) =
        if warned then [] else ((verdicts.findSome? Verdict.mishap?).map warn).toList := by
  induction verdicts generalizing warned with
  | nil => cases warned <;> exact ⟨rfl, rfl⟩
  | cons verdict verdicts ih =>
    rw [Verdict.givenAll, filter_append, filter_append, findSome?_cons, filterMap_cons]
    rw [filterMap_cons] at hl
    cases verdict with
    | dropped => simpa [Verdict.given, Verdict.finding?, Verdict.mishap?] using ih hl
    | failed mishap =>
      obtain ⟨hf, hwr⟩ := @ih true hl
      cases warned <;> simp [Verdict.given, Verdict.finding?, Verdict.mishap?, hw, warningKind_ne, hf, hwr]
    | reported diag =>
      obtain ⟨hk, hl⟩ := forall_mem_cons.mp hl
      simpa [Verdict.given, Verdict.finding?, Verdict.mishap?, hk] using ih hl

/-- The warning about the first guard that failed, if there is none about the predicate. -/
def closing (warn : Mishap → Diagnostic) (warned : Bool) (mishaps : List Mishap) : List Diagnostic :=
  if warned then [] else (mishaps.getLast?.map warn).toList

private theorem exists_of_mem_closing {warned : Bool} {mishaps : List Mishap} {diag : Diagnostic}
    (h : diag ∈ closing warn warned mishaps) : ∃ mishap, diag = warn mishap := by
  unfold closing at h
  split at h
  · cases h
  · obtain ⟨mishap, -, rfl⟩ := Option.map_eq_some_iff.mp (Option.mem_toList.mp h)
    exact ⟨mishap, rfl⟩

/-- What is given for verdicts, with the warning about a guard at the end. -/
def summary (warn : Mishap → Diagnostic) (verdicts : List Verdict) (mishaps : List Mishap) : List Diagnostic :=
  Verdict.givenAll warn false verdicts ++ closing warn (verdicts.any (·.mishap?.isSome)) mishaps

/-- The findings in a summary are those of the verdicts. The warning is about the first predicate that failed or else
about the first guard that did. -/
private theorem filter_summary {verdicts : List Verdict}
    (hw : ∀ mishap, (warn mishap).kind = Diagnostic.predicateWarningKind)
    (hl : ∀ diag ∈ verdicts.filterMap Verdict.finding?, diag.kind = Diagnostic.lintKind)
    (mishaps : List Mishap) :
    (summary warn verdicts mishaps).filter (·.kind == Diagnostic.lintKind) = verdicts.filterMap Verdict.finding? ∧
      (summary warn verdicts mishaps).filter (·.kind != Diagnostic.lintKind) =
        (((verdicts.findSome? Verdict.mishap?).or mishaps.getLast?).map warn).toList := by
  obtain ⟨hf, hwr⟩ := @filter_givenAll warn false hw _ hl
  have hc : ∀ diag ∈ closing warn (verdicts.any (·.mishap?.isSome)) mishaps,
      diag.kind = Diagnostic.predicateWarningKind := by
    intro diag hm
    obtain ⟨mishap, rfl⟩ := exists_of_mem_closing hm
    exact hw mishap
  have hno : (closing warn (verdicts.any (·.mishap?.isSome)) mishaps).filter (·.kind == Diagnostic.lintKind) = [] :=
    filter_eq_nil_iff.mpr fun diag hm => by simp [hc diag hm, warningKind_ne]
  have ha : (closing warn (verdicts.any (·.mishap?.isSome)) mishaps).filter (·.kind != Diagnostic.lintKind) =
      closing warn (verdicts.any (·.mishap?.isSome)) mishaps :=
    filter_eq_self.mpr fun diag hm => by simp [hc diag hm, warningKind_ne]
  rw [summary, filter_append, filter_append, hf, hwr, hno, ha, append_nil, closing, ← isSome_findSome?]
  refine ⟨rfl, ?_⟩
  cases verdicts.findSome? Verdict.mishap? <;> simp

/-- What holds of the kinds where at most one diagnostic is no finding, and that one is a warning. -/
private theorem kinds_of_warnings {diagnostics : List Diagnostic} {mishap? : Option Mishap}
    (hw : ∀ mishap, (warn mishap).kind = Diagnostic.predicateWarningKind)
    (h : diagnostics.filter (·.kind != Diagnostic.lintKind) = (mishap?.map warn).toList) :
    (∀ diag ∈ diagnostics,
      diag.kind = Diagnostic.lintKind ∨ diag.kind = Diagnostic.predicateWarningKind) ∧
    diagnostics.countP (·.kind == Diagnostic.predicateWarningKind) ≤ 1 ∧
    ((∃ diag ∈ diagnostics, diag.kind = Diagnostic.predicateWarningKind) ↔ mishap? ≠ none) := by
  have hk : ∀ diag ∈ diagnostics,
      diag.kind = Diagnostic.lintKind ∨ diag.kind = Diagnostic.predicateWarningKind := by
    refine fun diag hm => or_iff_not_imp_left.mpr fun hl => ?_
    have hwr : diag ∈ (mishap?.map warn).toList := h ▸ mem_filter.mpr ⟨hm, bne_iff_ne.mpr hl⟩
    obtain ⟨mishap, -, rfl⟩ := Option.map_eq_some_iff.mp (Option.mem_toList.mp hwr)
    exact hw mishap
  have ho : diagnostics.filter (·.kind == Diagnostic.predicateWarningKind) = (mishap?.map warn).toList := by
    rw [← h]
    refine filter_congr fun diag hm => ?_
    rcases hk diag hm with hkn | hkn <;> rw [hkn] <;> rfl
  refine ⟨hk, ?_, ?_⟩
  · rw [countP_eq_length_filter, ho]
    exact Option.length_toList_le
  · have hs : mishap? ≠ none ↔ (mishap?.map warn).toList ≠ [] := by
      rw [Ne, Ne, Option.toList_eq_nil_iff, Option.map_eq_none_iff]
    rw [hs, ← ho, Ne, filter_eq_nil_iff]
    simp

/-! ## Hiding findings -/

def Verdict.hide (hidden : Diagnostic → Bool) : Verdict → Verdict
  | .reported diagnostic => if hidden diagnostic then .dropped else .reported diagnostic
  | verdict => verdict

private theorem Verdict.mishap?_hide (hidden : Diagnostic → Bool) (verdict : Verdict) :
    (verdict.hide hidden).mishap? = verdict.mishap? := by
  cases verdict with
  | reported diag => cases hh : hidden diag <;> simp [hide, hh, mishap?]
  | failed => rfl
  | dropped => rfl

private theorem Verdict.given_hide {hidden : Diagnostic → Bool}
    (hw : ∀ mishap, hidden (warn mishap) = false) (warned : Bool) (verdict : Verdict) :
    (verdict.hide hidden).given warn warned = (verdict.given warn warned).filter (!hidden ·) := by
  cases verdict with
  | reported diag => cases hh : hidden diag <;> simp [hide, hh, given]
  | failed mishap => cases warned <;> simp [hide, given, hw mishap]
  | dropped => rfl

/-- Where there is no limit, hiding findings while going through the matches is leaving them out at the end. -/
theorem goThrough_hide {quiet : Judging} {hidden : Diagnostic → Bool} (hw : ∀ mishap, hidden (warn mishap) = false)
    (hq : ∀ found, quiet found = (judge found).map (Verdict.hide hidden))
    (last : Except Breakdown (List Mishap)) (count fewer : Nat) (warned : Bool)
    (all : List Sighting) :
    goThrough quiet warn none last fewer warned all =
      (goThrough judge warn none last count warned all).map fun outcome =>
        { outcome with diagnostics := outcome.diagnostics.filter (!hidden ·) } := by
  induction all generalizing count fewer warned with
  | nil => cases last <;> rfl
  | cons entry rest ih =>
    have he := hq entry.1
    cases hv : judge entry.1 with
    | error breakdown =>
      rw [hv] at he
      rw [goThrough, goThrough, hv, he]
      rfl
    | ok verdict =>
      rw [hv] at he
      rw [goThrough_cons hv rfl, goThrough_cons he rfl, Verdict.mishap?_hide, Verdict.given_hide hw,
        ih (count + if verdict.finding?.isSome then 1 else 0)]
      cases goThrough judge warn none last (count + if verdict.finding?.isSome then 1 else 0)
          (warned || verdict.mishap?.isSome) rest with
      | error => rfl
      | ok outcome =>
        exact congrArg (fun diagnostics => Except.ok { outcome with diagnostics }) (filter_append _ _).symm

end GoThrough

/-! ## Judging a match -/

def failure? : Predicate.Outcome Bool → Option Mishap
  | .error (.fault mishap) => some mishap
  | _ => none

private theorem failure?_eq_none_iff {outcome : Predicate.Outcome Bool} :
    failure? outcome = none ↔ ∀ mishap, outcome ≠ .error (.fault mishap) := by
  rcases outcome with (mishap | breakdown) | value <;> simp [failure?]

structure Run where
  rule : Rule
  severity : String
  tree : Tree
  config : Config
  suppressions : Suppressions

namespace Run

def diagnostics (run : Run) : Except Breakdown (List Diagnostic) :=
  runRule run.rule run.severity run.tree run.config run.suppressions

def trace (run : Run) : Match.Trace :=
  Match.trace run.rule.pattern run.tree

def judge (run : Run) : Judging :=
  Lint.judge run.rule run.severity run.tree run.suppressions

def finding (run : Run) (entry : Sighting) : Diagnostic :=
  Lint.finding run.rule run.severity run.tree entry.1

def warn (run : Run) : Mishap → Diagnostic :=
  mishapDiagnostic run.rule run.tree.path

/-- What the predicate of the rule says of a match. -/
def holds (run : Run) (entry : Sighting) : Predicate.Outcome Bool :=
  match run.rule.predicate with
  | none => .ok true
  | some predicate => predicate.evaluate run.tree entry.1.captures

/-- Whether a match is to be reported: the predicate holds and the place of the finding is not switched off. -/
def keeps (run : Run) (entry : Sighting) : Bool :=
  (run.holds entry).toOption == some true && !run.suppressions.hides run.rule.id (run.finding entry).span

/-- Whether the rule may give no more findings after those for some matches. -/
def isFull (run : Run) (seen : List Sighting) : Bool :=
  Lint.isFull run.config.maxMatchesPerRule (seen.countP run.keeps)

variable {run : Run} {entry : Sighting} {seen : List Sighting} {verdict : Verdict} {verdicts : List Verdict}
  {mishaps : List Mishap} {diagnostics : List Diagnostic}

/-- The verdict is settled by what the predicate says and by the suppressions. -/
private theorem judge_cases (run : Run) (entry : Sighting) :
    (∃ breakdown, run.holds entry = .error (.breakdown breakdown) ∧
      ∀ suppressions, Lint.judge run.rule run.severity run.tree suppressions entry.1 = .error breakdown) ∨
    (∃ mishap, run.holds entry = .error (.fault mishap) ∧
      ∀ suppressions, Lint.judge run.rule run.severity run.tree suppressions entry.1 = .ok (.failed mishap)) ∨
    (run.holds entry = .ok false ∧
      ∀ suppressions, Lint.judge run.rule run.severity run.tree suppressions entry.1 = .ok .dropped) ∨
    (run.holds entry = .ok true ∧ ∀ suppressions, Lint.judge run.rule run.severity run.tree suppressions entry.1 =
        .ok (if suppressions.hides run.rule.id (run.finding entry).span then .dropped
          else .reported (run.finding entry))) := by
  unfold Lint.judge holds finding
  cases run.rule.predicate with
  | none =>
    refine .inr (.inr (.inr ⟨rfl, fun suppressions => ?_⟩))
    dsimp only
    split <;> rfl
  | some pred =>
    dsimp only
    rcases pred.evaluate run.tree entry.1.captures with (mishap | breakdown) | (_ | _)
    · exact .inr (.inl ⟨mishap, rfl, fun _ => rfl⟩)
    · exact .inl ⟨breakdown, rfl, fun _ => rfl⟩
    · exact .inr (.inr (.inl ⟨rfl, fun _ => rfl⟩))
    · refine .inr (.inr (.inr ⟨rfl, fun suppressions => ?_⟩))
      dsimp only
      split <;> rfl

private theorem exists_judge_iff :
    (∃ verdict, run.judge entry.1 = .ok verdict) ↔ ∀ breakdown, run.holds entry ≠ .error (.breakdown breakdown) := by
  unfold judge
  rcases run.judge_cases entry with ⟨_, hh, hj⟩ | ⟨_, hh, hj⟩ | ⟨hh, hj⟩ | ⟨hh, hj⟩ <;> simp [hh, hj]

private theorem mishap?_of_judge (h : run.judge entry.1 = .ok verdict) :
    verdict.mishap? = failure? (run.holds entry) := by
  unfold judge at h
  rcases run.judge_cases entry with ⟨_, hh, hj⟩ | ⟨_, hh, hj⟩ | ⟨hh, hj⟩ | ⟨hh, hj⟩ <;>
    rw [hj] at h <;> cases h <;> rw [hh]
  · rfl
  · rfl
  · split <;> rfl

private theorem finding?_of_judge (h : run.judge entry.1 = .ok verdict) :
    verdict.finding? = if run.keeps entry then some (run.finding entry) else none := by
  unfold judge at h
  unfold keeps
  rcases run.judge_cases entry with ⟨_, hh, hj⟩ | ⟨_, hh, hj⟩ | ⟨hh, hj⟩ | ⟨hh, hj⟩ <;>
    rw [hj] at h <;> cases h <;> rw [hh]
  · rfl
  · rfl
  · cases run.suppressions.hides run.rule.id (run.finding entry).span <;> rfl

private theorem keeps_eq (h : run.judge entry.1 = .ok verdict) : run.keeps entry = verdict.finding?.isSome := by
  rw [finding?_of_judge h]
  cases run.keeps entry <;> rfl

def Judges (run : Run) : List Sighting → List Verdict → Prop :=
  List.Forall₂ fun entry verdict => run.judge entry.1 = .ok verdict

private theorem Judges.filterMap_finding? (h : run.Judges seen verdicts) :
    verdicts.filterMap Verdict.finding? = (seen.filter run.keeps).map run.finding := by
  induction h with
  | nil => rfl
  | @cons entry _ _ _ hj _ ih =>
    rw [filterMap_cons, finding?_of_judge hj, filter_cons, ih]
    cases run.keeps entry <;> rfl

private theorem Judges.findSome?_mishap? (h : run.Judges seen verdicts) :
    verdicts.findSome? Verdict.mishap? = seen.findSome? fun entry => failure? (run.holds entry) := by
  induction h with
  | nil => rfl
  | cons hj _ ih => rw [findSome?_cons, findSome?_cons, mishap?_of_judge hj, ih]

/-! ## The diagnostics -/

/-- How the search for matches ended: with the guards that failed, or broken down. -/
def searched (run : Run) : Except Breakdown (List Mishap) :=
  run.trace.breakdown.elim (.ok run.trace.record.mishaps) .error

private theorem diagnostics_eq (run : Run) : run.diagnostics =
      (goThrough run.judge run.warn run.config.maxMatchesPerRule run.searched 0 false run.trace.found).map
        fun outcome => outcome.diagnostics ++ closing run.warn outcome.warned outcome.mishaps := by
  have hr : run.diagnostics =
      goThrough run.judge run.warn run.config.maxMatchesPerRule run.searched 0 false run.trace.found >>= fun outcome =>
        if outcome.warned then return outcome.diagnostics
        else return outcome.diagnostics ++ (outcome.mishaps.getLast?.map run.warn).toList := by
    unfold diagnostics runRule searched trace
    dsimp only
    cases (Match.trace run.rule.pattern run.tree).breakdown <;> rfl
  rw [hr]
  rcases goThrough run.judge run.warn run.config.maxMatchesPerRule run.searched 0 false run.trace.found with
    _ | ⟨diagnostics, _ | _, mishaps⟩
  · rfl
  · rfl
  · exact congrArg _ (append_nil diagnostics).symm

/-- The matches that the rule looks at, and the guards that have failed by then. -/
def examined (run : Run) : List Sighting × Except Breakdown (List Mishap) :=
  examine run.config.maxMatchesPerRule run.keeps run.searched 0 run.trace.found

/-- The guards that had failed at the last of some matches, or in the whole search where the limit was not reached. -/
def recorded (run : Run) (seen : List Sighting) : List Mishap :=
  if run.isFull seen then (seen.getLast?.map (·.2)).getD [] else run.trace.record.mishaps

private theorem diagnostics_eq_ok_iff (ho : Lint.isFull run.config.maxMatchesPerRule 0 = false) :
    run.diagnostics = .ok diagnostics ↔ ∃ verdicts mishaps, run.Judges run.examined.1 verdicts ∧
      run.examined.2 = .ok mishaps ∧ summary run.warn verdicts mishaps = diagnostics := by
  rw [diagnostics_eq, goThrough_eq (fun _ _ => keeps_eq) ho, map_eq_ok_iff]
  simp only [bind_eq_ok_iff, map_eq_ok_iff, mapM_eq_ok_iff, Bool.false_or]
  constructor
  · rintro ⟨_, ⟨verdicts, hv, mishaps, hm, rfl⟩, rfl⟩
    exact ⟨verdicts, mishaps, hv, hm, rfl⟩
  · rintro ⟨verdicts, mishaps, hv, hm, rfl⟩
    exact ⟨_, ⟨verdicts, hv, mishaps, hm, rfl⟩, rfl⟩

private theorem ended_eq_ok_iff (ho : Lint.isFull run.config.maxMatchesPerRule 0 = false) :
    run.examined.2 = .ok mishaps ↔
      (run.isFull run.examined.1 = true ∨ run.trace.breakdown = none) ∧ run.recorded run.examined.1 = mishaps := by
  rw [examined, ended_examine ho, Nat.zero_add]
  generalize examine _ _ _ _ _ = examined
  unfold recorded isFull
  cases Lint.isFull run.config.maxMatchesPerRule (examined.1.countP run.keeps) with
  | true => simp
  | false => cases hb : run.trace.breakdown <;> simp [searched, hb]

/-- What a rule gives, for the matches that it looks at. -/
structure Gives (run : Run) (seen : List Sighting) (diagnostics : List Diagnostic) : Prop where
  findings : diagnostics.filter (·.kind == Diagnostic.lintKind) =
    (atMost run.config.maxMatchesPerRule (run.trace.found.filter run.keeps)).map run.finding
  kinds : ∀ diagnostic ∈ diagnostics,
    diagnostic.kind = Diagnostic.lintKind ∨ diagnostic.kind = Diagnostic.predicateWarningKind
  warned_once : diagnostics.countP (·.kind == Diagnostic.predicateWarningKind) ≤ 1
  warned_iff : (∃ diagnostic ∈ diagnostics, diagnostic.kind = Diagnostic.predicateWarningKind) ↔
    (∃ entry ∈ seen, ∃ mishap, run.holds entry = .error (.fault mishap)) ∨ run.recorded seen ≠ []

private theorem gives_summary (he : Examined run.config.maxMatchesPerRule run.keeps 0 run.trace.found seen)
    (hv : run.Judges seen verdicts) : run.Gives seen (summary run.warn verdicts (run.recorded seen)) := by
  have hl : ∀ diag ∈ verdicts.filterMap Verdict.finding?, diag.kind = Diagnostic.lintKind := by
    intro diag hm
    rw [hv.filterMap_finding?] at hm
    obtain ⟨entry, -, rfl⟩ := mem_map.mp hm
    rfl
  obtain ⟨hf, hw⟩ := @filter_summary run.warn _ (fun _ => rfl) hl (run.recorded seen)
  obtain ⟨hk, ho, hi⟩ := kinds_of_warnings (fun _ => rfl) hw
  refine ⟨?_, hk, ho, hi.trans ?_⟩
  · rw [hf, hv.filterMap_finding?, he.filter_eq]
  · have hfl : (seen.findSome? fun entry => failure? (run.holds entry)) ≠ none ↔
        ∃ entry ∈ seen, ∃ mishap, run.holds entry = .error (.fault mishap) := by
      simp only [Ne, findSome?_eq_none_iff, failure?_eq_none_iff]
      push Not
      rfl
    rw [hv.findSome?_mishap?, ← hfl, Ne, Option.or_eq_none_iff, getLast?_eq_none_iff, not_and_or]

/-! ## Taking a suppression away -/

/-- The run with some suppressions in the source. -/
def under (run : Run) (inline : List Suppression) : Run :=
  { run with suppressions := { run.suppressions with inline } }

private theorem judge_under (run : Run) (before : List Suppression) (suppression : Suppression)
    (after : List Suppression)
    (found : Match) :
    (run.under (before ++ suppression :: after)).judge found =
      ((run.under (before ++ after)).judge found).map (Verdict.hide fun diag =>
        diag.kind == Diagnostic.lintKind && suppression.covers diag.rule diag.span) := by
  have hh (span : Span) : (run.under (before ++ suppression :: after)).suppressions.hides run.rule.id span =
        ((run.under (before ++ after)).suppressions.hides run.rule.id span || suppression.covers run.rule.id span) := by
    simp only [under, Suppressions.hides, any_append, any_cons]
    grind
  change Lint.judge run.rule run.severity run.tree _ found = (Lint.judge run.rule run.severity run.tree _ found).map _
  rcases run.judge_cases (found, []) with ⟨_, _, hj⟩ | ⟨_, _, hj⟩ | ⟨_, hj⟩ | ⟨_, hj⟩
  · rw [hj, hj]
    rfl
  · rw [hj, hj]
    rfl
  · rw [hj, hj]
    rfl
  · rw [hj, hj, hh]
    cases (run.under (before ++ after)).suppressions.hides run.rule.id (run.finding (found, [])).span <;> rfl

/-- Without a limit, one more suppression takes away the findings that it covers and nothing else. -/
private theorem diagnostics_under (hl : run.config.maxMatchesPerRule = none) (before : List Suppression)
    (suppression : Suppression) (after : List Suppression) :
    (run.under (before ++ suppression :: after)).diagnostics =
      (run.under (before ++ after)).diagnostics.map (List.filter fun diag =>
        !(diag.kind == Diagnostic.lintKind && suppression.covers diag.rule diag.span)) := by
  have hn (inline : List Suppression) : (run.under inline).config.maxMatchesPerRule = none := hl
  rw [diagnostics_eq, diagnostics_eq, hn, hn,
    goThrough_hide (fun _ => rfl) (run.judge_under before suppression after) _ 0]
  change Except.map _ (Except.map _ (goThrough _ run.warn none run.searched 0 false run.trace.found)) =
    Except.map _ (Except.map _ (goThrough _ run.warn none run.searched 0 false run.trace.found))
  cases goThrough (run.under (before ++ after)).judge run.warn none run.searched 0 false run.trace.found with
  | error => rfl
  | ok outcome =>
    refine congrArg Except.ok ((congrArg _ (filter_eq_self.mpr fun diag hm => ?_).symm).trans
      (filter_append _ _).symm)
    obtain ⟨mishap, rfl⟩ := exists_of_mem_closing hm
    rfl

/-- The findings of a rule are the first, as many as the limit allows, of those for the matches that its predicate holds
for and that no suppression covers, in the order of the matches. At most one warning is given, and one if and only if
the predicate failed for a match that was looked at or a guard did until then. All this is given unless the predicate
breaks down for a match that is looked at, or the search breaks down and the limit is not reached. Without a limit,
taking a suppression away adds findings that it covers and nothing else. -/
theorem findings_exact (run : Run) (hlimit : ∀ limit, run.config.maxMatchesPerRule = some limit → 1 ≤ limit) :
    (∃ seen, Examined run.config.maxMatchesPerRule run.keeps 0 run.trace.found seen ∧
      ((∃ diagnostics, run.diagnostics = .ok diagnostics) ↔
        (∀ entry ∈ seen, ∀ breakdown, run.holds entry ≠ .error (.breakdown breakdown)) ∧
          (run.isFull seen = true ∨ run.trace.breakdown = none)) ∧
      ∀ diagnostics, run.diagnostics = .ok diagnostics → run.Gives seen diagnostics) ∧
    (run.config.maxMatchesPerRule = none → ∀ before suppression after,
      (run.under (before ++ suppression :: after)).diagnostics =
        (run.under (before ++ after)).diagnostics.map (List.filter fun diagnostic =>
          !(diagnostic.kind == Diagnostic.lintKind && suppression.covers diagnostic.rule diagnostic.span))) := by
  have ho : Lint.isFull run.config.maxMatchesPerRule 0 = false := by
    cases hmx : run.config.maxMatchesPerRule with
    | none => rfl
    | some limit =>
      have := hlimit limit hmx
      simp only [Lint.isFull, decide_eq_false_iff_not]
      omega
  refine ⟨⟨run.examined.1, examined_examine ho, ?_, fun diagnostics h => ?_⟩, diagnostics_under⟩
  · have hj : (∃ verdicts, run.Judges run.examined.1 verdicts) ↔
        ∀ entry ∈ run.examined.1, ∀ breakdown, run.holds entry ≠ .error (.breakdown breakdown) := by
      simp only [Judges, ← mapM_eq_ok_iff, exists_mapM_eq_ok_iff, exists_judge_iff]
    rw [← hj]
    simp only [diagnostics_eq_ok_iff ho, ended_eq_ok_iff ho]
    constructor
    · rintro ⟨_, verdicts, _, hv, ⟨he, -⟩, -⟩
      exact ⟨⟨verdicts, hv⟩, he⟩
    · rintro ⟨⟨verdicts, hv⟩, he⟩
      exact ⟨_, verdicts, _, hv, ⟨he, rfl⟩, rfl⟩
  · obtain ⟨verdicts, mishaps, hv, hm, rfl⟩ := (diagnostics_eq_ok_iff ho).mp h
    obtain ⟨-, rfl⟩ := (ended_eq_ok_iff ho).mp hm
    exact gives_summary (examined_examine ho) hv

/-! ## A run in full -/

section Letters

open TreeLint.Tree (letters letterSource letterKinds letterTree parse_letters)

/-- A capture is found in itself. This fails where its text is no regular expression. -/
def selfFound : Predicate where
  source := "x =~ x"
  expr := .compare .found (.capture "x" none) (.capture "x" none)

/-- The form of a letter or a sign. -/
def glyphForm : Sexp :=
  .list [.symbol "bind", .symbol "x", .list [.symbol "or", .symbol "A", .string "+"]]

def glyphPattern (grammar : Grammar) : Pattern where
  source := glyphForm.text
  root := .capture 0 "x" (.oneOf 1 [.kind 2 "A" 7, .text 3 "+"])
  grammarName := grammar.name

def glyphRule (grammar : Grammar) : Rule where
  id := "r"
  pattern := glyphPattern grammar
  message := "m"
  severity := "warning"
  predicate := some selfFound
  primary := none
  secondary := []
  description := ""
  tags := []
  defect := none

def glyphAt (node : Nat) : Match :=
  ⟨node, [("x", .one node)], [node]⟩

/-- What the comment behind the first letter switches off. -/
def firstLine : Suppression where
  span := .between 0 2 1 1 Tree.defaultPath
  comment := some (.between 1 2 1 2 Tree.defaultPath)

def glyphRun (grammar : Grammar) (limit : Option Int) (inline : List Suppression) : Run where
  rule := glyphRule grammar
  severity := "warning"
  tree := letterTree grammar
  config := { maxMatchesPerRule := limit }
  suppressions := { inline }

/-- The run with a limit of one finding, and with the first line switched off. -/
def limitedRun (grammar : Grammar) : Run :=
  glyphRun grammar (some 1) [firstLine]

variable {grammar : Grammar}

private theorem collect_letters (hb : Grammar.build letters = .ok grammar) :
    Suppression.collect (letterTree grammar) = [firstLine] := by
  obtain ⟨other, ho, hc, hd⟩ : ∃ grammar, Grammar.build letters = .ok grammar ∧
      grammar.suppression.commentKinds = ["C"] ∧ Suppression.directive? grammar [.scalar '1'] = some [] := by
    have hm : ({ term := .set { tests := [.code 49] } } : Regex).matchAt #[.scalar '1'] 0 = some { position := 1 } := by
      cbv
    refine ⟨_, rfl, rfl, ?_⟩
    rw [Suppression.directive?, Regex.search, Regex.searchFrom]
    exact hm ▸ rfl
  cases hb.symm.trans ho
  change Suppression.directive? grammar (Text.ofString "1") = some [] at hd
  change Suppression.collectFrom _ Tree.letterTokens = _
  simp only [Tree.letterTokens, Suppression.collectFrom, letterTree, Grammar.isComment, hc, hd]
  cbv

section

variable (hk : grammar.kinds = letterKinds)

include hk

private theorem compileGiven_glyphForm :
    Pattern.compileGiven grammar (.form glyphForm) = .ok (glyphPattern grammar) := by
  cases grammar
  cases hk
  rfl

private theorem found_glyphRun (limit : Option Int) (inline : List Suppression) :
    (glyphRun grammar limit inline).trace.breakdown = none ∧
      (glyphRun grammar limit inline).trace.found.map (·.1) = [2, 5, 7, 8].map glyphAt := by
  have hp : ∀ part ∈ (glyphPattern grammar).root.parts, part.predicate? = none := by
    simp [glyphPattern, Pattern.Instr.parts, Pattern.Instr.partsOfAll, Pattern.Instr.predicate?]
  have hf := Match.trace_follows (Pattern.formed_of_compileGiven (compileGiven_glyphForm hk))
    (@Match.Record.valid_empty _ (letterTree grammar))
  have hn := hf.ends (Match.not_breaks_of_predicate? hp)
  exact ⟨hn, (hf.complete hn).trans (by cbv)⟩

/-- The predicate holds or fails for every match. -/
private theorem holds_glyphRun (limit : Option Int) (inline : List Suppression)
    (he : entry ∈ (glyphRun grammar limit inline).trace.found) (breakdown : Breakdown) :
    (glyphRun grammar limit inline).holds entry ≠ .error (.breakdown breakdown) := by
  have ha : ([2, 5, 7, 8].map glyphAt).all fun found =>
      ((glyphRun grammar limit inline).holds (found, [])).toOption.isSome ||
        (failure? ((glyphRun grammar limit inline).holds (found, []))).isSome := by
    cbv
  rw [← (found_glyphRun hk limit inline).2, all_map] at ha
  intro hb
  have hh := all_eq_true.mp ha entry he
  rw [Function.comp, show (glyphRun grammar limit inline).holds (entry.1, []) = _ from hb] at hh
  cases hh

private theorem findings_glyphRun (limit : Option Int) (inline : List Suppression) {nodes : List Nat}
    (h : ([2, 5, 7, 8].map glyphAt).filter (fun found => (glyphRun grammar limit inline).keeps (found, [])) =
      nodes.map glyphAt) :
    ((glyphRun grammar limit inline).trace.found.filter (glyphRun grammar limit inline).keeps).map
        (glyphRun grammar limit inline).finding =
      nodes.map (Lint.finding (glyphRule grammar) "warning" (letterTree grammar) <| glyphAt ·) := by
  rw [← (found_glyphRun hk limit inline).2, filter_map] at h
  have hm := congrArg (map (Lint.finding (glyphRule grammar) "warning" (letterTree grammar))) h
  rw [map_map, map_map] at hm
  exact hm

/-- The sign is looked at: neither the letter before it nor the sign itself is a finding. -/
private theorem sign_examined
    (he : Examined (some 1) (limitedRun grammar).keeps 0 (limitedRun grammar).trace.found seen) :
    ∃ entry ∈ seen, ∃ mishap, (limitedRun grammar).holds entry = .error (.fault mishap) := by
  have hn : ([2, 5].map glyphAt).all fun found => !(limitedRun grammar).keeps (found, []) := by cbv
  have hf : (failure? ((limitedRun grammar).holds (glyphAt 5, []))).isSome := by cbv
  have hq : ((limitedRun grammar).trace.found.take 2).map (·.1) = [2, 5].map glyphAt := by
    rw [map_take, limitedRun, (found_glyphRun hk _ _).2]
    rfl
  obtain ⟨entry, hen, heq⟩ : ∃ entry ∈ (limitedRun grammar).trace.found.take 2, entry.1 = glyphAt 5 :=
    mem_map.mp (hq ▸ mem_cons_of_mem _ mem_cons_self)
  rw [← hq, all_map, all_eq_true] at hn
  have ht := take_prefix 2 (limitedRun grammar).trace.found
  refine ⟨entry, (he.prefix_of_unkept rfl ht fun item hi => ?_).subset hen, ?_⟩
  · exact Bool.not_eq_true' _ ▸ hn item hi
  · by_contra hne
    rw [← heq, show failure? ((limitedRun grammar).holds (entry.1, [])) = none from
      failure?_eq_none_iff.mpr (not_exists.mp hne)] at hf
    cases hf

end

/-- The letter on the first line is switched off, the predicate fails at the sign behind it, and with the next letter the
limit is reached. Without a limit, the suppression takes the first letter away and nothing else. -/
theorem findings_exact_of_letters : ∃ grammar rule tree, Grammar.build letters = .ok grammar ∧
    rule = glyphRule grammar ∧ Pattern.compileGiven grammar (.form glyphForm) = .ok rule.pattern ∧
    tree = Tree.parse grammar letterSource ∧
    (∃ diagnostics, runRule rule "warning" tree { maxMatchesPerRule := some 1 } (.ofTree tree) = .ok diagnostics ∧
      diagnostics.filter (·.kind == Diagnostic.lintKind) = [Lint.finding rule "warning" tree (glyphAt 7)] ∧
      ∃ diagnostic ∈ diagnostics, diagnostic.kind = Diagnostic.predicateWarningKind) ∧
    ∃ diagnostics, runRule rule "warning" tree {} {} = .ok diagnostics ∧
      diagnostics.filter (·.kind == Diagnostic.lintKind) =
        [2, 7, 8].map (Lint.finding rule "warning" tree <| glyphAt ·) ∧
      runRule rule "warning" tree {} (.ofTree tree) = .ok (diagnostics.filter fun diagnostic =>
        !(diagnostic.kind == Diagnostic.lintKind && firstLine.covers diagnostic.rule diagnostic.span)) := by
  obtain ⟨grammar, hb, hk, ht⟩ := parse_letters
  have hs : Suppressions.ofTree (letterTree grammar) = { inline := [firstLine] } :=
    congrArg (fun inline => ({ inline } : Suppressions)) (collect_letters hb)
  refine ⟨grammar, _, _, hb, rfl, compileGiven_glyphForm hk, rfl, ?_⟩
  rw [ht, hs]
  constructor
  · obtain ⟨seen, he, hg, hd⟩ := (findings_exact (limitedRun grammar)
      fun limit heq => Int.le_of_eq (Option.some.inj heq)).1
    obtain ⟨diagnostics, hdg⟩ :=
      hg.mpr ⟨fun entry hen => holds_glyphRun hk _ _ (he.starts.subset hen), .inr (found_glyphRun hk _ _).1⟩
    obtain ⟨hf, -, -, hw⟩ := hd diagnostics hdg
    have hfi := @findings_glyphRun _ hk (some 1) [firstLine] [7, 8] (by cbv)
    exact ⟨diagnostics, hdg, hf.trans ((map_take ..).trans (congrArg (take 1) hfi)),
      hw.mpr (.inl (sign_examined hk he))⟩
  · obtain ⟨⟨seen, he, hg, hd⟩, hu⟩ := findings_exact (glyphRun grammar none [])
      fun _ h => absurd h.symm (Option.some_ne_none _)
    obtain ⟨diagnostics, hdg⟩ :=
      hg.mpr ⟨fun entry hen => holds_glyphRun hk _ _ (he.starts.subset hen), .inr (found_glyphRun hk _ _).1⟩
    have hfi := @findings_glyphRun _ hk none [] [2, 7, 8] (by cbv)
    exact ⟨diagnostics, hdg, (hd diagnostics hdg).findings.trans hfi,
      (hu rfl [] firstLine []).trans (congrArg _ hdg)⟩

end Letters

end Run

end Lint

end TreeLint
