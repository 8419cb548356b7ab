import Mathlib.Data.List.Forall2
import TreeLint.Proofs.CheckedGrammar
import TreeLint.Proofs.RecordedMatch

/-!
# Searching with a record

One record may serve any number of searches and of matches at single nodes.

* `Plain.run`, `Plain.atNode?`: what a search and a match at a node find without a record;
* `collects`: a search yields what plain attempts give, up to a guard that breaks down;
* `calls_plain`: after any calls, the next one gives what it would give without a record, unless a guard breaks down.
-/

namespace TreeLint

open List Pattern

namespace Match

namespace Plain

def atNode (tree : Tree) (root : Instr) (node : Nat) : Option Match :=
  (matchNode tree root node [] fun _ => true).map fun captures => { anchor := node, captures, nodes := [node] }

def atNode? (pattern : Pattern) (tree : Tree) (id : Int) : Except Misuse (Option Match) :=
  if pattern.isSequence then .error .notNodePattern
  else
    match tree.resolve? id with
    | some node => .ok (atNode tree pattern.root node)
    | none => .error (.noSuchNode id)

/-- The match of a run that passes a check and starts with the first of some siblings. -/
def ofSiblings (tree : Tree) (items : List Instr) (check : Bindings → Bool) (siblings : List Nat) : Option Match :=
  match matchItems tree false items siblings [] check with
  | none => none
  | some (captures, left) =>
    match siblings.take (siblings.length - left) with
    | [] => none
    | anchor :: others => some { anchor, captures, nodes := anchor :: others }

def attempts (pattern : Pattern) (tree : Tree) : List (Option Match) :=
  match pattern.root with
  | .siblings _ items guard =>
    (siblingRuns tree).map fun (_, siblings) =>
      ofSiblings tree items (fun found => guard.all (·.isTrue tree found)) siblings
  | root => (candidates pattern tree).map (atNode tree root)

/-- The matches among outcomes, each once and none of those seen. -/
def distinct (seen : List Match) : List (Option Match) → List Match
  | [] => []
  | none :: outcomes => distinct seen outcomes
  | some found :: outcomes =>
    if seen.contains found.key then distinct seen outcomes else found :: distinct (found.key :: seen) outcomes

def run (pattern : Pattern) (tree : Tree) : List Match :=
  distinct [] (attempts pattern tree)

end Plain

variable {root : Instr} {tree : Tree} {pattern : Pattern} {record : Record}

/-! ## Attempts -/

private theorem yields_atNode (hf : Formed root) {node : Nat} (hn : IsPlace tree node) :
    Yields root tree (Breaks root tree ·) (atNode tree root node) (Plain.atNode tree root node) :=
  (yields_matchNode hf hn).map _

theorem isPlace_of_resolve? {id : Int} {node : Nat} (h : tree.resolve? id = some node) : IsPlace tree node := by
  unfold Tree.resolve? resolveIndex? at h
  grind [IsPlace]

/-- Matching at a node with a record gives what it gives without one. -/
theorem yields_atNode? (hf : Formed pattern.root) (id : Int) : Yields pattern.root tree (Breaks pattern.root tree ·)
    (atNode? pattern tree id) (Plain.atNode? pattern tree id) := by
  unfold atNode? Plain.atNode?
  split
  · exact yields_pure _
  · cases hr : tree.resolve? id with
    | some node => exact (yields_atNode hf (isPlace_of_resolve? hr)).map _
    | none => exact yields_pure _

def guardChain (id : Nat) : Option Predicate → List Pending
  | some predicate => [.guard id predicate]
  | none => []

private theorem isAccepted_guardChain (id : Nat) (guard : Option Predicate) :
    isAccepted tree (guardChain id guard) = fun found => guard.all (·.isTrue tree found) := by
  funext found
  cases guard with
  | none => rfl
  | some pred => exact Bool.and_true _

theorem allOf_guardChain (id : Nat) (items : List Instr) (guard : Option Predicate) :
    AllOf (.siblings id items guard) (guardChain id guard) := by
  cases guard with
  | none => exact allOf_nil
  | some pred => exact allOf_cons.2 ⟨⟨_, Instr.self_mem_parts _, rfl, rfl⟩, allOf_nil⟩

theorem awaited_guardChain (id : Nat) (guard : Option Predicate) : Awaited root tree [] (guardChain id guard) := by
  cases guard with
  | none => exact awaited_nil
  | some pred => exact awaited_nil.guard

theorem suffix_of_mem_siblingRuns {parent : Nat} {siblings : List Nat}
    (h : (parent, siblings) ∈ siblingRuns tree) : siblings <:+ tree.significantChildren parent := by
  obtain ⟨id, -, hm⟩ := mem_flatMap.1 h
  obtain ⟨start, -, heq⟩ := mem_map.1 hm
  cases heq
  exact drop_suffix _ _

private theorem yields_ofSiblings {id parent : Nat} {items : List Instr} {guard : Option Predicate}
    {siblings : List Nat}
    (hf : Formed (.siblings id items guard)) (hs : siblings <:+ tree.significantChildren parent) :
    Yields (.siblings id items guard) tree (Breaks (.siblings id items guard) tree ·)
      (ofSiblings tree id items (guardChain id guard) parent siblings)
      (Plain.ofSiblings tree items (fun found => guard.all (·.isTrue tree found)) siblings) := by
  rw [ofSiblings, Plain.ofSiblings, ← isAccepted_guardChain id guard]
  refine (yields_matchItems hf hs (allOf_guardChain id items guard) (awaited_guardChain id guard)).bind ?_
  cases Plain.matchItems tree false items siblings [] (isAccepted tree (guardChain id guard)) with
  | none => exact yields_pure none
  | some found =>
    obtain ⟨captures, left⟩ := found
    dsimp only
    cases siblings.take (siblings.length - left) with
    | nil | cons => exact yields_pure _

theorem lt_of_mem_candidates {node : Nat} (h : node ∈ candidates pattern tree) : node < tree.size := by
  unfold candidates at h
  split at h <;> exact mem_range.1 (mem_filter.1 h).1

theorem yields_attempts (hf : Formed pattern.root) :
    List.Forall₂ (Yields pattern.root tree (Breaks pattern.root tree ·)) (attempts pattern tree)
      (Plain.attempts pattern tree) := by
  have hn : List.Forall₂ (Yields pattern.root tree (Breaks pattern.root tree ·))
      ((candidates pattern tree).map (atNode tree pattern.root))
      ((candidates pattern tree).map (Plain.atNode tree pattern.root)) := by
    rw [forall₂_map_left_iff, forall₂_map_right_iff, forall₂_same]
    exact fun node hm => yields_atNode hf (.inl (lt_of_mem_candidates hm))
  unfold attempts Plain.attempts
  generalize pattern.root = root at hf hn ⊢
  cases root with
  | siblings id items guard =>
    rw [forall₂_map_left_iff, forall₂_map_right_iff, forall₂_same]
    rintro ⟨parent, siblings⟩ hm
    exact yields_ofSiblings hf (suffix_of_mem_siblingRuns hm)
  | _ => exact hn

/-! ## Whole searches -/

/-- A search that ends with a valid record and either gives all matches or breaks off before some of them. -/
structure Trace.Follows (root : Instr) (tree : Tree) (trace : Trace) (expected : List Match) : Prop where
  valid : trace.record.Valid root tree
  complete : trace.breakdown = none → trace.found.map (·.1) = expected
  broken : ∀ breakdown, trace.breakdown = some breakdown →
    Breaks root tree breakdown ∧ trace.found.map (·.1) <+: expected

/-- A search goes on to its end where no guard breaks down. -/
theorem Trace.Follows.ends {trace : Trace} {expected : List Match} (h : trace.Follows root tree expected)
    (hn : ∀ breakdown, ¬ Breaks root tree breakdown) : trace.breakdown = none :=
  Option.eq_none_iff_forall_ne_some.2 fun breakdown hb => hn breakdown (h.broken breakdown hb).1

theorem collects {attempts : List (Matching (Option Match))} {outcomes : List (Option Match)}
    (h : List.Forall₂ (Yields root tree (Breaks root tree ·)) attempts outcomes) (hv : record.Valid root tree)
    (seen : List Match) :
    (collect record seen attempts).Follows root tree (Plain.distinct seen outcomes) := by
  induction h generalizing record seen with
  | nil => exact ⟨hv, fun _ => rfl, fun _ hb => by cases hb⟩
  | @cons attempt outcome attempts outcomes ha _ ih =>
    obtain ⟨haf, hr⟩ := ha record hv
    rw [collect]
    rcases hrn : (attempt.run).run record with ⟨result, after⟩
    rw [hrn] at haf hr
    rcases hr with rfl | ⟨breakdown, rfl, hbr⟩
    · cases outcome with
      | none => exact ih haf seen
      | some found =>
        rw [Plain.distinct]
        dsimp only
        split
        · exact ih haf seen
        · obtain ⟨hl, hc, hbro⟩ := ih haf (found.key :: seen)
          refine ⟨hl, fun hn => congrArg (found :: ·) (hc hn), fun breakdown hs => ?_⟩
          obtain ⟨hbr, hst⟩ := hbro breakdown hs
          exact ⟨hbr, cons_prefix_cons.2 ⟨rfl, hst⟩⟩
    · -- the search ends before anything of the rest is found
      refine ⟨haf, fun hn => (by cases hn), fun other ho => ?_⟩
      cases ho
      exact ⟨hbr, nil_prefix⟩

/-- A search with a valid record gives the matches of a search without one. -/
theorem trace_follows (hf : Formed pattern.root) (hv : record.Valid pattern.root tree) :
    (trace pattern tree record).Follows pattern.root tree (Plain.run pattern tree) :=
  collects (yields_attempts hf) hv []

/-! ## Calls one after the other -/

/-- What a matcher is asked for. -/
inductive Call where
  | run
  | atNode (id : Int)

def Call.leave (pattern : Pattern) (tree : Tree) (record : Record) : Call → Record
  | run => (trace pattern tree record).record
  | atNode id => (((atNode? pattern tree id).run).run record).2

def recordAfter (pattern : Pattern) (tree : Tree) (calls : List Call) : Record :=
  calls.foldl (Call.leave pattern tree) {}

theorem Call.valid_leave (hf : Formed pattern.root) (call : Call) (hv : record.Valid pattern.root tree) :
    (call.leave pattern tree record).Valid pattern.root tree := by
  cases call with
  | run => exact (trace_follows hf hv).valid
  | atNode id => exact (yields_atNode? hf id record hv).1

/-- The record is valid after any calls. -/
theorem valid_recordAfter (hf : Formed pattern.root) (calls : List Call) :
    (recordAfter pattern tree calls).Valid pattern.root tree := by
  unfold recordAfter
  suffices h : ∀ record : Record, record.Valid pattern.root tree →
      (calls.foldl (Call.leave pattern tree) record).Valid pattern.root tree from h {} Record.valid_empty
  induction calls with
  | nil => exact fun _ hv => hv
  | cons call calls ih => exact fun record hv => ih _ (call.valid_leave hf hv)

def letterGuard : Predicate where
  source := "x.text == \"a\""
  expr := .compare .equal (.capture "x" (some .text)) (.constant (.text "a"))

private theorem evaluate_letterGuard (tree : Tree) (bindings : Bindings) (breakdown : Breakdown) :
    letterGuard.evaluate tree bindings ≠ .error (.breakdown breakdown) := by
  intro h
  rw [Predicate.evaluate, letterGuard] at h
  simp only [Predicate.Expr.evaluate] at h
  cases hg : bindings.get? "x" with
  | none =>
    rw [hg] at h
    cases h
  | some binding =>
    rw [hg] at h
    cases h

theorem readShape_letterGuard :
    readShape "x: _ where x.text == \"a\"" = .ok (.guarded (.capture "x" .wildcard) letterGuard) := by
  have ht : (match readShape "x: _ where x.text == \"a\"" with
    | .ok (.guarded (.capture name .wildcard)
        ⟨src, .compare .equal (.capture read aspect) (.constant (.text letter))⟩) =>
      name == "x" && src == "x.text == \"a\"" && read == "x" && aspect == some .text && letter == "a"
    | _ => false) = true := by decide +kernel
  split at ht
  next name src read aspect letter hs =>
    simp only [Bool.and_eq_true, beq_iff_eq] at ht
    obtain ⟨⟨⟨⟨rfl, rfl⟩, rfl⟩, rfl⟩, rfl⟩ := ht
    exact hs
  · cases ht

theorem checkTop_letterGuard (g : Grammar) : checkTop g (.guarded (.capture "x" .wildcard) letterGuard) =
      .ok (.guarded 0 (.capture 1 "x" (.wildcard 2)) letterGuard) := by
  have hr : letterGuard.references = ["x"] := by decide +kernel
  have hg : checkGuard ([] ++ (Instr.capture 1 "x" (.wildcard 2)).surelyBinds) letterGuard = .ok () := by
    rw [checkGuard, hr]
    rfl
  change (checkGuard ([] ++ (Instr.capture 1 "x" (.wildcard 2)).surelyBinds) letterGuard >>= fun _ => _) = _
  rw [hg]
  rfl

theorem not_breaks_letterGuard (tree : Tree) (breakdown : Breakdown) :
    ¬ Breaks (.guarded 0 (.capture 1 "x" (.wildcard 2)) letterGuard) tree breakdown := by
  rintro ⟨id, pred, bindings, ⟨part, hp, -, hpr⟩, -, he⟩
  have hpa : part = .guarded 0 (.capture 1 "x" (.wildcard 2)) letterGuard ∨
      part = .capture 1 "x" (.wildcard 2) ∨ part = .wildcard 2 := by
    simpa [Instr.parts] using hp
  rcases hpa with rfl | rfl | rfl
  · cases hpr
    exact evaluate_letterGuard tree bindings breakdown he
  · cases hpr
  · cases hpr

/-- After any calls, a search and a match at a node give what they give without a record, with late guards and with
ellipses of every length, unless the evaluation of a guard breaks down. -/
theorem calls_plain {grammar : Grammar} {given : Given} {pattern : Pattern}
    (hpattern : compileGiven grammar given = .ok pattern) (tree : Tree) (calls : List Call) :
    ((trace pattern tree (recordAfter pattern tree calls)).matches = .ok (Plain.run pattern tree) ∨
      ∃ breakdown, (trace pattern tree (recordAfter pattern tree calls)).matches = .error breakdown ∧
        Breaks pattern.root tree breakdown ∧
          (trace pattern tree (recordAfter pattern tree calls)).found.map (·.1) <+: Plain.run pattern tree) ∧
    ∀ id, (((atNode? pattern tree id).run).run (recordAfter pattern tree calls)).1 =
        .ok (Plain.atNode? pattern tree id) ∨
      ∃ breakdown, (((atNode? pattern tree id).run).run (recordAfter pattern tree calls)).1 = .error breakdown ∧
        Breaks pattern.root tree breakdown := by
  have hf := formed_of_compileGiven hpattern
  have hv : (recordAfter pattern tree calls).Valid pattern.root tree := valid_recordAfter hf calls
  refine ⟨?_, fun id => (yields_atNode? hf id _ hv).2⟩
  obtain ⟨-, hc, hb⟩ := trace_follows hf hv
  unfold Trace.matches
  cases hbr : (trace pattern tree (recordAfter pattern tree calls)).breakdown with
  | none => exact .inl (congrArg _ (hc hbr))
  | some breakdown => exact .inr ⟨breakdown, rfl, hb breakdown hbr⟩

/-- A guarded capture, searched for once more after a search and a match at the first node. -/
theorem calls_plain_of_letter : ∃ grammar pattern, Grammar.build Grammar.loop = .ok grammar ∧
    compileGiven grammar (.text "x: _ where x.text == \"a\"") = .ok pattern ∧
      (trace pattern (Tree.parse grammar (.ofText (Text.ofString "a")) Tree.defaultPath {})
        (recordAfter pattern (Tree.parse grammar (.ofText (Text.ofString "a")) Tree.defaultPath {})
          [.run, .atNode 0])).matches =
        .ok (Plain.run pattern (Tree.parse grammar (.ofText (Text.ofString "a")) Tree.defaultPath {})) := by
  obtain ⟨grammar, hb⟩ := Grammar.exists_build_loop
  have hp := compileGiven_text readShape_letterGuard (checkTop_letterGuard grammar)
  refine ⟨grammar, _, hb, hp, ?_⟩
  rcases (calls_plain hp _ _).1 with h | ⟨breakdown, -, hbr, -⟩
  · exact h
  · exact absurd hbr (not_breaks_letterGuard _ breakdown)

end Match

end TreeLint
