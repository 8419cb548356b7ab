import TreeLint.Proofs.Lossless
import TreeLint.Proofs.RecordedSearch

/-!
# Guards that break down early

A guard is decided as soon as the captures that it reads are bound, and one that reads nothing is decided before anything
is matched. Most guards that cannot be evaluated just do not hold, but one with an expression that breaks down ends the
search, although the guarded pattern may match nowhere.

* `run_eq_error`: such a guard ends every search with a node to start from;
* `Plain.run_eq_nil`: without early guards nothing is found, and no guard is looked at, if the text occurs nowhere.
-/

namespace TreeLint

open List

namespace Match

open Pattern (Instr)

variable {tree : Tree} {pattern : Pattern} {record : Record} {predicate : Predicate} {breakdown : Breakdown} {id : Nat}

/-! ## The search ends -/

/-- Starting with a record, a computation breaks down. -/
def Throws {α : Type} (record : Record) (computation : Matching α) (breakdown : Breakdown) : Prop :=
  ∃ after, (computation.run).run record = (.error breakdown, after)

theorem Throws.bind {α β : Type} {first : Matching α} {next : α → Matching β} (h : Throws record first breakdown) :
    Throws record (first >>= next) breakdown := by
  obtain ⟨after, ha⟩ := h
  refine ⟨after, ?_⟩
  simp only [ExceptT.run_bind, StateT.run_bind]
  rw [ha]
  rfl

theorem Throws.get {α : Type} {next : Record → Matching α} (h : Throws record (next record) breakdown) :
    Throws record (get >>= next) breakdown :=
  h

section

variable (hb : predicate.evaluate tree [] = .error (.breakdown breakdown))

include hb

private theorem throws_holds : Throws {} (holds tree id predicate []) breakdown := by
  refine .get ?_
  rw [Std.HashMap.getElem?_empty]
  rw [hb]
  exact ⟨{}, rfl⟩

private theorem throws_settle (hr : predicate.references = []) :
    Throws {} (settle tree [] [.guard id predicate]) breakdown := by
  rw [settle, hr, all_nil, if_pos rfl]
  exact (throws_holds hb).bind

/-- A guard that reads nothing is decided before the instruction that it guards is matched. -/
theorem throws_matchNode (hr : predicate.references = []) (inner : Instr) (node : Nat) :
    Throws {} (matchNode tree (.guarded id inner predicate) node [] []) breakdown := by
  have hs : Throws {} (settle tree [] [.guard id predicate]) breakdown := throws_settle hb hr
  have hi : Throws {} (matchNode tree inner node [] [.guard id predicate]) breakdown := by
    rw [matchNode]
    exact hs.bind
  have hrc : ∀ key, Throws {} (recallNode key (matchNode tree inner node [] [.guard id predicate])) breakdown := by
    intro key
    refine .get ?_
    rw [Std.HashMap.getElem?_empty]
    exact hi.bind
  rw [matchNode]
  exact hrc _

theorem throws_matchItems (hr : predicate.references = []) (owner parent : Nat) (anchored : Bool)
    (items : List Instr) (siblings : List Nat) (count : Nat) :
    Throws {} (matchItems tree owner parent anchored items siblings count [] [.guard id predicate]) breakdown := by
  rw [matchItems.eq_def]
  exact (throws_settle hb hr).bind

theorem run_eq_error {inner : Instr} {first : Nat} {others : List Nat}
    (hr : pattern.root = .guarded id inner predicate) (hrd : predicate.references = [])
    (hc : candidates pattern tree = first :: others) : run pattern tree = .error breakdown := by
  have ht : Throws {} (atNode tree (.guarded id inner predicate) first) breakdown :=
    (throws_matchNode hb hrd inner first).bind
  obtain ⟨after, ha⟩ := ht
  rw [run, trace, attempts, hr]
  dsimp only
  rw [hc, map_cons, collect, ha]
  rfl

end

/-! ## Nothing is found -/

private theorem Plain.distinct_eq_nil {seen : List Match} {outcomes : List (Option Match)}
    (h : ∀ outcome ∈ outcomes, outcome = none) : Plain.distinct seen outcomes = [] := by
  induction outcomes with
  | nil => rfl
  | cons outcome outcomes ih =>
    rw [h outcome mem_cons_self]
    exact ih (forall_mem_cons.1 h).2

theorem Plain.run_eq_nil {inner : Nat} {value : String} (hr : pattern.root = .guarded id (.text inner value) predicate)
    (ht : ∀ node, tree.text node ≠ Text.ofString value) : Plain.run pattern tree = [] := by
  rw [Plain.run, Plain.attempts, hr]
  refine Plain.distinct_eq_nil fun outcome ho => ?_
  obtain ⟨node, -, rfl⟩ := mem_map.1 ho
  rw [Plain.atNode, Plain.matchNode, Plain.matchNode, if_neg (by simpa using ht node)]
  rfl

/-! ## Trees to search in -/

/-- Where any node may do, a search in a parsed tree starts at its root. -/
theorem exists_candidates {g : Grammar} (hg : g.Tabulated) {source : Source} (hs : source.Coherent)
    (path : String) (config : Config) (hp : pattern.anchorKinds = none) :
    ∃ others, candidates pattern (Tree.parse g source path config) = 0 :: others := by
  obtain ⟨cut, hgr⟩ := Tree.grown_parse hg hs path config
  obtain ⟨count, hc⟩ : ∃ count, (Tree.parse g source path config).size = count + 1 :=
    Nat.exists_eq_succ_of_ne_zero (by rw [hgr.size_eq]; exact Nat.ne_of_gt (Layout.size_pos _))
  have ht : ((Tree.parse g source path config).node 0).trivia = false := by
    rw [hgr.filed.node_eq]
    rfl
  rw [candidates, hp, hc, range_succ_eq_map]
  exact ⟨_, filter_cons_of_pos (by rw [ht]; rfl)⟩

theorem text_eq_nil (h : tree.source = .ofText (Text.ofString "")) (node : Nat) : tree.text node = [] := by
  have hby : (Source.ofText (Text.ofString "")).bytes = [] := rfl
  rw [Tree.text, h, Source.slice]
  simp only [hby, drop_nil, take_nil]
  rw [decode]

/-! ## Two alphabets at once -/

theorem evaluate_found {right : String} (hr : Regex.read (Text.ofString right) = .error (.breakdown breakdown))
    (source left : String) (tree : Tree) (bindings : Bindings) :
    Predicate.evaluate { source, expr := .compare .found (.constant (.text left)) (.constant (.text right)) } tree
      bindings = .error (.breakdown breakdown) := by
  have hf : Predicate.isFound "'=~'" (Text.ofString right) (Text.ofString left) =
      .error (.breakdown breakdown) := by
    rw [Predicate.isFound, hr]
    rfl
  have ha : Predicate.Comparison.found.apply tree (.text (Text.ofString left)) (.text (Text.ofString right)) =
      .error (.breakdown breakdown) := hf
  have he : (Predicate.Expr.compare .found (.constant (.text left)) (.constant (.text right))).evaluate tree
      bindings = .error (.breakdown breakdown) := by
    simp only [Predicate.Expr.evaluate, Predicate.Constant.value]
    exact congrArg (· >>= fun truth => pure (Predicate.Value.bool truth)) ha
  rw [Predicate.evaluate, he]
  rfl

/-- A guard without captures whose expression asks for two alphabets. -/
def clash : Predicate where
  source := "\"a\" =~ \"(?a)(?u)a\""
  expr := .compare .found (.constant (.text "a")) (.constant (.text "(?a)(?u)a"))

theorem read_clash : Regex.read (Text.ofString "(?a)(?u)a") = .error (.breakdown .alphabets) := by
  have ht : (match Regex.read (Text.ofString "(?a)(?u)a") with
    | .error (.breakdown .alphabets) => true
    | _ => false) = true := by decide +kernel
  split at ht
  next hr => exact hr
  · cases ht

theorem references_clash : clash.references = [] := by
  decide +kernel

theorem readGuard_clash : Predicate.read "\"a\" =~ \"(?a)(?u)a\"" = .ok clash := by
  have ht : (match Predicate.read "\"a\" =~ \"(?a)(?u)a\"" with
    | .ok ⟨source, .compare .found (.constant (.text left)) (.constant (.text right))⟩ =>
      source == "\"a\" =~ \"(?a)(?u)a\"" && left == "a" && right == "(?a)(?u)a"
    | _ => false) = true := by decide +kernel
  split at ht
  next source left right hg =>
    simp only [Bool.and_eq_true, beq_iff_eq] at ht
    obtain ⟨⟨rfl, rfl⟩, rfl⟩ := ht
    exact hg
  · cases ht

theorem readShape_clash :
    Pattern.readShape "\"zzz\" where \"a\" =~ \"(?a)(?u)a\"" = .ok (.guarded (.text "zzz") clash) := by
  have ht : (match Pattern.readShape "\"zzz\" where \"a\" =~ \"(?a)(?u)a\"" with
    | .ok (.guarded (.text value) ⟨source, .compare .found (.constant (.text left)) (.constant (.text right))⟩) =>
      value == "zzz" && source == "\"a\" =~ \"(?a)(?u)a\"" && left == "a" && right == "(?a)(?u)a"
    | _ => false) = true := by decide +kernel
  split at ht
  next value source left right hs =>
    simp only [Bool.and_eq_true, beq_iff_eq] at ht
    obtain ⟨⟨⟨rfl, rfl⟩, rfl⟩, rfl⟩ := ht
    exact hs
  · cases ht

theorem checkTop_clash (g : Grammar) :
    Pattern.checkTop g (.guarded (.text "zzz") clash) = .ok (.guarded 0 (.text 1 "zzz") clash) := by
  have hg : Pattern.checkGuard ([] ++ (Instr.text 1 "zzz").surelyBinds) clash = .ok () := by
    rw [Pattern.checkGuard, references_clash]
    rfl
  change (Pattern.checkGuard ([] ++ (Instr.text 1 "zzz").surelyBinds) clash >>= fun _ => _) = _
  rw [hg]
  rfl

/-- The pattern of a text with the guard, for a grammar. -/
def clashing (grammar : Grammar) : Pattern where
  source := "\"zzz\" where \"a\" =~ \"(?a)(?u)a\""
  root := .guarded 0 (.text 1 "zzz") clash
  grammarName := grammar.name

/-- The search for a text that does not occur ends with an error, although no match of it could reach the guard. -/
theorem run_breaks_off_on_empty : ∃ grammar pattern, Grammar.build Grammar.loop = .ok grammar ∧
    Pattern.compileGiven grammar (.text "\"zzz\" where \"a\" =~ \"(?a)(?u)a\"") = .ok pattern ∧
      run pattern (Tree.parse grammar (.ofText (Text.ofString "")) Tree.defaultPath {}) = .error .alphabets ∧
        Plain.run pattern (Tree.parse grammar (.ofText (Text.ofString "")) Tree.defaultPath {}) = [] := by
  obtain ⟨grammar, hbl⟩ := Grammar.exists_build_loop
  have hg := (Grammar.built_of_build hbl).tabulated
  have hk : (clashing grammar).anchorKinds = none := rfl
  refine ⟨grammar, clashing grammar, hbl, Pattern.compileGiven_text readShape_clash (checkTop_clash grammar), ?_, ?_⟩
  · obtain ⟨others, hc⟩ := exists_candidates hg (Source.coherent_ofText "") Tree.defaultPath {} hk
    exact run_eq_error (evaluate_found read_clash _ _ _ _) rfl references_clash hc
  · refine Plain.run_eq_nil rfl fun node => ?_
    rw [text_eq_nil rfl]
    decide

end Match

end TreeLint
