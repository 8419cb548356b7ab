import TreeLint.Proofs.GuardBreakdown

/-!
# Least divisions

A list of items divides siblings among its ellipses: how many each of them takes decides where the fixed items fall. Of
all ways to divide them, the first in the order of dictionaries is taken.

* `divide?`: what the items bind if their ellipses take given numbers of siblings;
* `Admits`: the lengths are admitted: all siblings that have to be taken are, and the check is passed;
* `isFirst_of_matchItems`, `isSome_of_admits`: plain matching finds the first division, if there is any;
* `lists_divide_least`: and so does matching with a record, unless a guard breaks down.
-/

namespace TreeLint

open List Pattern

namespace Match

open Pattern.Instr (bindersOfAll Separate)

/-- What items bind and how many siblings they leave, if each ellipsis takes as many siblings as the next of the lengths
says, and each other item matches the sibling after those before it. -/
def divide? (tree : Tree) : List Instr → List Nat → List Nat → Bindings → Option (Bindings × Nat)
  | [], lengths, siblings, _ => if lengths.isEmpty then some ([], siblings.length) else none
  | item :: items, lengths, siblings, bindings =>
    if item.isEllipsis then
      match lengths with
      | [] => none
      | length :: lengths =>
        if length ≤ siblings.length then
          (divide? tree items lengths (siblings.drop length)
            (bindings.add (runBindings item (siblings.take length)))).map
              fun others => ((runBindings item (siblings.take length)).add others.1, others.2)
        else none
    else
      match siblings with
      | [] => none
      | sibling :: siblings =>
        (Plain.matchNode tree item sibling bindings fun _ => true).bind fun bound =>
          (divide? tree items lengths siblings (bindings.add bound)).map fun others => (bound.add others.1, others.2)

/-- Whether no sibling may be left: all are to be taken, or an ellipsis stands last. -/
def exhaustive (anchored : Bool) (items : List Instr) : Bool :=
  anchored || items.getLast?.any (·.isEllipsis)

/-- The names of the captured ellipses, with the siblings that the lengths give them. -/
def assignedRuns : List Instr → List Nat → List Nat → List (String × List Nat)
  | [], _, _ => []
  | item :: items, lengths, siblings =>
    if item.isEllipsis then
      item.runName?.toList.map (·, siblings.take (lengths.headD 0)) ++
        assignedRuns items lengths.tail (siblings.drop (lengths.headD 0))
    else assignedRuns items lengths siblings.tail

/-- Lengths of the ellipses with which items match siblings and pass the check. -/
structure Admits (tree : Tree) (anchored : Bool) (items : List Instr) (siblings : List Nat) (bindings : Bindings)
    (check : Bindings → Bool) (lengths : List Nat) (found : Bindings × Nat) : Prop where
  divide_eq : divide? tree items lengths siblings bindings = some found
  exhausted : exhaustive anchored items → found.2 = 0
  accepted : check (bindings.add found.1)

/-- A division before all others in the order of dictionaries. -/
structure IsFirst (tree : Tree) (anchored : Bool) (items : List Instr) (siblings : List Nat) (bindings : Bindings)
    (check : Bindings → Bool) (lengths : List Nat) (found : Bindings × Nat) : Prop where
  admits : Admits tree anchored items siblings bindings check lengths found
  least : ∀ others result, Admits tree anchored items siblings bindings check others result →
    others = lengths ∨ List.Lex (· < ·) lengths others

/-- A result is that of the first division, and there is none only if there is no division. -/
structure Leftmost (tree : Tree) (anchored : Bool) (items : List Instr) (siblings : List Nat) (bindings : Bindings)
    (check : Bindings → Bool) (result : Option (Bindings × Nat)) : Prop where
  of_some : ∀ found, result = some found →
    ∃ lengths, IsFirst tree anchored items siblings bindings check lengths found ∧
      ∀ name run, (name, run) ∈ assignedRuns items lengths siblings → found.1.get? name = some (.run run)
  none_iff : result = none ↔ ∀ lengths found, ¬ Admits tree anchored items siblings bindings check lengths found

variable {tree : Tree} {anchored : Bool} {item : Instr} {items : List Instr} {lengths siblings : List Nat}
  {bindings : Bindings} {check : Bindings → Bool} {found : Bindings × Nat}

/-! ## Divisions, case by case -/

private theorem divide?_nil_eq_some_iff :
    divide? tree [] lengths siblings bindings = some found ↔ lengths = [] ∧ ([], siblings.length) = found := by
  cases lengths <;> simp [divide?]

private theorem divide?_ellipsis_eq_some_iff (hi : item.isEllipsis) :
    divide? tree (item :: items) lengths siblings bindings = some found ↔
      ∃ length rest, lengths = length :: rest ∧ length ≤ siblings.length ∧ ∃ others,
        divide? tree items rest (siblings.drop length) (bindings.add (runBindings item (siblings.take length))) =
          some others ∧ ((runBindings item (siblings.take length)).add others.1, others.2) = found := by
  cases lengths with
  | nil => simp [divide?, hi]
  | cons length rest => by_cases hle : length ≤ siblings.length <;> simp [divide?, hi, hle]

private theorem divide?_fixed_eq_some_iff (hi : ¬ item.isEllipsis) :
    divide? tree (item :: items) lengths siblings bindings = some found ↔
      ∃ sibling rest, siblings = sibling :: rest ∧ ∃ bound,
        Plain.matchNode tree item sibling bindings (fun _ => true) = some bound ∧ ∃ others,
          divide? tree items lengths rest (bindings.add bound) = some others ∧
            (bound.add others.1, others.2) = found := by
  cases siblings with
  | nil => simp [divide?, hi]
  | cons sibling rest => simp [divide?, hi, Option.bind_eq_some_iff]

private theorem exhaustive_cons (anchored : Bool) (item : Instr) (items : List Instr) :
    exhaustive anchored (item :: items) =
      if items.isEmpty then anchored || item.isEllipsis else exhaustive anchored items := by
  cases items with
  | nil => simp [exhaustive]
  | cons next items => simp [exhaustive, getLast?_cons]

private theorem admits_nil_iff : Admits tree anchored [] siblings bindings check lengths found ↔
    lengths = [] ∧ ([], siblings.length) = found ∧ (anchored → siblings.length = 0) ∧ check (bindings.add []) := by
  constructor
  · rintro ⟨hd, he, ha⟩
    obtain ⟨hl, rfl⟩ := divide?_nil_eq_some_iff.1 hd
    exact ⟨hl, rfl, by simpa [exhaustive] using he, ha⟩
  · rintro ⟨hl, rfl, han, ha⟩
    exact ⟨divide?_nil_eq_some_iff.2 ⟨hl, rfl⟩, by simpa [exhaustive] using han, ha⟩

/-- The lengths tried are those that can be taken, save that the last ellipsis takes all if none may be left. -/
private theorem mem_lengths_iff {length : Nat} (hi : item.isEllipsis) {others : Bindings × Nat}
    (ho : divide? tree items lengths (siblings.drop length) bindings = some others) :
    length ∈ Plain.lengths anchored items siblings.length ∧ (exhaustive anchored items → others.2 = 0) ↔
      length ≤ siblings.length ∧ (exhaustive anchored (item :: items) → others.2 = 0) := by
  have hr : length ∈ List.range (siblings.length + 1) ↔ length ≤ siblings.length :=
    mem_range.trans Nat.lt_succ_iff
  rw [exhaustive_cons, Plain.lengths]
  cases items with
  | nil =>
    obtain ⟨-, rfl⟩ := divide?_nil_eq_some_iff.1 ho
    rw [length_drop]
    cases anchored with
    | true => exact and_congr hr Iff.rfl
    | false =>
      constructor
      · intro h
        have ha : length = siblings.length := mem_singleton.1 h.1
        exact ⟨by omega, fun _ => by omega⟩
      · intro h
        have hn : siblings.length - length = 0 := h.2 hi
        have hle := h.1
        exact ⟨mem_singleton.2 (by omega), fun hf => absurd hf Bool.false_ne_true⟩
  | cons next items => exact and_congr hr Iff.rfl

/-- What an ellipsis takes is among the lengths that are tried, and the rest divides what it leaves. -/
private theorem admits_ellipsis_iff (hi : item.isEllipsis) :
    Admits tree anchored (item :: items) siblings bindings check lengths found ↔
      ∃ length rest, lengths = length :: rest ∧ length ∈ Plain.lengths anchored items siblings.length ∧ ∃ others,
        Admits tree anchored items (siblings.drop length) (bindings.add (runBindings item (siblings.take length)))
          check rest others ∧ ((runBindings item (siblings.take length)).add others.1, others.2) = found := by
  constructor
  · rintro ⟨hd, he, ha⟩
    obtain ⟨length, rest, rfl, hle, others, ho, rfl⟩ := (divide?_ellipsis_eq_some_iff hi).1 hd
    obtain ⟨hl, hlf⟩ := (mem_lengths_iff hi ho).2 ⟨hle, he⟩
    exact ⟨length, rest, rfl, hl, others, ⟨ho, hlf, by rwa [← Bindings.add_assoc]⟩, rfl⟩
  · rintro ⟨length, rest, rfl, hl, others, ⟨ho, hlf, ha⟩, rfl⟩
    obtain ⟨hle, he⟩ := (mem_lengths_iff hi ho).1 ⟨hl, hlf⟩
    exact ⟨(divide?_ellipsis_eq_some_iff hi).2 ⟨length, rest, rfl, hle, others, ho, rfl⟩, he,
      by rwa [Bindings.add_assoc]⟩

private theorem admits_fixed_iff (hi : ¬ item.isEllipsis) :
    Admits tree anchored (item :: items) siblings bindings check lengths found ↔
      ∃ sibling rest, siblings = sibling :: rest ∧ ∃ bound,
        Plain.matchNode tree item sibling bindings (fun _ => true) = some bound ∧ ∃ others,
          Admits tree anchored items rest (bindings.add bound) check lengths others ∧
            (bound.add others.1, others.2) = found := by
  have he : exhaustive anchored (item :: items) = exhaustive anchored items := by
    rw [exhaustive_cons]
    cases items <;> simp [hi, exhaustive]
  constructor
  · rintro ⟨hd, hexh, ha⟩
    obtain ⟨sibling, rest, rfl, bound, hb, others, ho, rfl⟩ := (divide?_fixed_eq_some_iff hi).1 hd
    rw [he] at hexh
    exact ⟨sibling, rest, rfl, bound, hb, others, ⟨ho, hexh, by rwa [← Bindings.add_assoc]⟩, rfl⟩
  · rintro ⟨sibling, rest, rfl, bound, hb, others, ⟨ho, hexh, ha⟩, rfl⟩
    exact ⟨(divide?_fixed_eq_some_iff hi).2 ⟨sibling, rest, rfl, bound, hb, others, ho, rfl⟩,
      by rwa [he], by rwa [Bindings.add_assoc]⟩

/-! ## The first division -/

theorem isSome_of_admits (h : Admits tree anchored items siblings bindings check lengths found) :
    (Plain.matchItems tree anchored items siblings bindings check).isSome := by
  induction items generalizing siblings bindings lengths found with
  | nil =>
    obtain ⟨-, -, ha, hac⟩ := admits_nil_iff.1 h
    rw [Plain.matchItems, if_neg (by simpa using ha), Option.isSome_map, Plain.accepted, if_pos hac]
    rfl
  | cons item items ih =>
    by_cases hi : item.isEllipsis
    · obtain ⟨length, rest, -, hl, others, hr, -⟩ := (admits_ellipsis_iff hi).1 h
      rw [Plain.matchItems_ellipsis hi, findSome?_isSome_iff]
      exact ⟨length, hl, by rw [Option.isSome_map]; exact ih hr⟩
    · obtain ⟨sibling, rest, rfl, bound, hb, others, hr, -⟩ := (admits_fixed_iff hi).1 h
      rw [Plain.matchItems_fixed_cons hi, hb]
      rw [Option.isSome_map]
      exact ih hr

private theorem pairwise_lengths (anchored : Bool) (items : List Instr) (count : Nat) :
    (Plain.lengths anchored items count).Pairwise (· < ·) := by
  unfold Plain.lengths
  split
  · exact pairwise_singleton _ _
  · exact pairwise_lt_range

theorem isFirst_of_matchItems (h : Plain.matchItems tree anchored items siblings bindings check = some found) :
    ∃ lengths, IsFirst tree anchored items siblings bindings check lengths found := by
  induction items generalizing siblings bindings found with
  | nil =>
    rw [Plain.matchItems] at h
    split at h
    · cases h
    next ha =>
      obtain ⟨bound, hb, rfl⟩ := Option.map_eq_some_iff.1 h
      obtain ⟨rfl, hc⟩ := Plain.eq_of_accepted hb
      refine ⟨[], admits_nil_iff.2 ⟨rfl, rfl, by simpa using ha, hc⟩, fun others result ho => ?_⟩
      exact .inl (admits_nil_iff.1 ho).1
  | cons item items ih =>
    by_cases hi : item.isEllipsis
    · rw [Plain.matchItems_ellipsis hi] at h
      obtain ⟨before, taken, after, hs, ht, hbf⟩ := findSome?_eq_some_iff.1 h
      obtain ⟨others, ho, rfl⟩ := Option.map_eq_some_iff.1 ht
      obtain ⟨lengths, had, hl⟩ := ih ho
      have hmm : taken ∈ Plain.lengths anchored items siblings.length := by simp [hs]
      refine ⟨taken :: lengths, (admits_ellipsis_iff hi).2 ⟨taken, lengths, rfl, hmm, others, had, rfl⟩,
        fun more result hm => ?_⟩
      obtain ⟨length, rest, rfl, hln, same, hr, -⟩ := (admits_ellipsis_iff hi).1 hm
      rcases Nat.lt_trichotomy length taken with hlt | rfl | hgt
      · -- a smaller number was tried before and found nothing
        have hord := pairwise_lengths anchored items siblings.length
        rw [hs] at hord hln
        have he : length ∈ before := by
          rcases mem_append.1 hln with he | hla
          · exact he
          · have haf := (pairwise_cons.1 (pairwise_append.1 hord).2.1).1
            rcases mem_cons.1 hla with heq | hla
            · omega
            · have := haf length hla
              omega
        have hn := hbf length he
        have hso := isSome_of_admits hr
        rw [Option.map_eq_none_iff] at hn
        rw [hn] at hso
        cases hso
      · rcases hl rest same hr with rfl | hlx
        · exact .inl rfl
        · exact .inr (.cons hlx)
      · exact .inr (.rel hgt)
    · cases siblings with
      | nil =>
        rw [Plain.matchItems_fixed_nil hi] at h
        cases h
      | cons sibling siblings =>
        rw [Plain.matchItems_fixed_cons hi] at h
        split at h
        · cases h
        next bound hb =>
          obtain ⟨others, ho, rfl⟩ := Option.map_eq_some_iff.1 h
          obtain ⟨lengths, had, hl⟩ := ih ho
          refine ⟨lengths, (admits_fixed_iff hi).2 ⟨sibling, siblings, rfl, bound, hb, others, had, rfl⟩,
            fun more result hm => ?_⟩
          obtain ⟨_, _, heq, _, hsa, same, hr, -⟩ := (admits_fixed_iff hi).1 hm
          cases heq
          rw [hb] at hsa
          cases hsa
          exact hl more same hr

/-! ## Captured runs -/

private theorem mem_mayBind_of_divide? (h : divide? tree items lengths siblings bindings = some found) :
    ∀ name ∈ found.1.names, name ∈ Instr.mayBindOfAll items := by
  induction items generalizing lengths siblings bindings found with
  | nil =>
    obtain ⟨-, rfl⟩ := divide?_nil_eq_some_iff.1 h
    exact forall_mem_nil _
  | cons item items ih =>
    intro name hn
    by_cases hi : item.isEllipsis
    · obtain ⟨length, rest, -, -, others, ho, rfl⟩ := (divide?_ellipsis_eq_some_iff hi).1 h
      rcases Bindings.mem_names_add.1 hn with hn | hn
      · exact mem_append_left _ (Plain.mem_mayBind_of_runBindings hn)
      · exact mem_append_right _ (ih ho name hn)
    · obtain ⟨sibling, rest, -, bound, hb, others, ho, rfl⟩ := (divide?_fixed_eq_some_iff hi).1 h
      rcases Bindings.mem_names_add.1 hn with hn | hn
      · exact mem_append_left _ ((Plain.sound tree item _ _ _ _ hb).mayBind name hn)
      · exact mem_append_right _ (ih ho name hn)

/-- A captured ellipsis is bound to the siblings that the lengths give it, whatever was bound before. -/
private theorem get?_of_mem_assignedRuns (hs : Separate items)
    (h : divide? tree items lengths siblings bindings = some found) {name : String} {run : List Nat}
    (hrn : (name, run) ∈ assignedRuns items lengths siblings) :
    (∀ before : Bindings, (before.add found.1).get? name = some (.run run)) ∧ found.1.get? name = some (.run run) := by
  induction items generalizing lengths siblings bindings found with
  | nil => cases hrn
  | cons item items ih =>
    by_cases hi : item.isEllipsis
    · obtain ⟨length, rest, rfl, -, others, ho, rfl⟩ := (divide?_ellipsis_eq_some_iff hi).1 h
      rw [assignedRuns, if_pos hi] at hrn
      rcases mem_append.1 hrn with hf | hr
      · obtain ⟨hn, rfl⟩ : item.runName? = some name ∧ siblings.take length = run := by simpa using hf
        have hb : runBindings item (siblings.take length) = [(name, .run (siblings.take length))] := by
          rw [runBindings, hn]
        -- the items after it do not bind the name again
        have hot : name ∉ others.1.names := by
          intro hm
          have hbn : name ∈ item.mayBind :=
            @Plain.mem_mayBind_of_runBindings item (siblings.take length) name (by simp [hb, Bindings.names])
          exact hs.1 name hbn (Instr.mayBindOfAll_subset items (mem_mayBind_of_divide? ho name hm))
        refine ⟨fun before => ?_, ?_⟩
        · rw [Bindings.add_assoc, Bindings.get?_add_of_not_mem hot, hb, Bindings.add_cons, Bindings.add_nil,
            Bindings.get?_put, if_pos rfl]
        · rw [Bindings.get?_add_of_not_mem hot, hb]
          simp [Bindings.get?]
      · obtain ⟨ha, -⟩ := ih hs.2 ho hr
        exact ⟨fun before => by rw [Bindings.add_assoc]; exact ha _, ha _⟩
    · obtain ⟨sibling, rest, rfl, bound, -, others, ho, rfl⟩ := (divide?_fixed_eq_some_iff hi).1 h
      rw [assignedRuns, if_neg hi] at hrn
      obtain ⟨ha, -⟩ := ih hs.2 ho hrn
      exact ⟨fun before => by rw [Bindings.add_assoc]; exact ha _, ha _⟩

/-! ## Whole lists -/

private theorem leftmost_matchItems (hs : Separate items) : Leftmost tree anchored items siblings bindings check
      (Plain.matchItems tree anchored items siblings bindings check) where
  of_some found hf := by
    obtain ⟨lengths, hfr⟩ := isFirst_of_matchItems hf
    exact ⟨lengths, hfr, fun name run hr =>
      (get?_of_mem_assignedRuns hs hfr.admits.divide_eq hr).2⟩
  none_iff := by
    constructor
    · intro hn lengths found ha
      have hso := isSome_of_admits ha
      rw [hn] at hso
      cases hso
    · intro hnt
      cases hf : Plain.matchItems tree anchored items siblings bindings check with
      | none => rfl
      | some found =>
        obtain ⟨lengths, hfr⟩ := isFirst_of_matchItems hf
        exact absurd hfr.admits (hnt lengths found)

private theorem separate_of_suffix {all : List Instr} (h : Separate all) (hi : items <:+ all) : Separate items := by
  obtain ⟨before, rfl⟩ := hi
  induction before with
  | nil => exact h
  | cons item before ih => exact ih h.2

/-- Items at the end of a list of a pattern, matched with siblings, give the result of the first division of these in
the order of dictionaries, and none only if there is no division, unless the evaluation of a guard breaks down. The
record stays valid, and those that calls leave are. -/
theorem lists_divide_least {grammar : Grammar} {given : Given} {pattern : Pattern}
    (hpattern : compileGiven grammar given = .ok pattern) (tree : Tree) :
    (∀ calls, (recordAfter pattern tree calls).Valid pattern.root tree) ∧
    ∀ owner ∈ pattern.root.parts, ∀ anchored all, owner.list? = some (anchored, all) → ∀ items, items <:+ all →
      ∀ parent siblings, siblings <:+ tree.significantChildren parent →
        ∀ bindings pending, Fresh (bindersOfAll items) bindings → AllOf pattern.root pending →
          ∀ record : Record, record.Valid pattern.root tree → ∃ outcome after,
            ((matchItems tree owner.id parent anchored items siblings siblings.length bindings pending).run).run
              record = (outcome, after) ∧ after.Valid pattern.root tree ∧
            ((∃ result, outcome = .ok result ∧
                Leftmost tree anchored items siblings bindings (isAccepted tree pending) result) ∨
              ∃ breakdown, outcome = .error breakdown ∧ Breaks pattern.root tree breakdown bindings pending) := by
  have hf := formed_of_compileGiven hpattern
  refine ⟨valid_recordAfter hf, ?_⟩
  intro owner ho anchored all hall items hi parent siblings hs bindings pending hfr hp record hv
  have hsp : Separate items := separate_of_suffix (hf.separate owner ho anchored all hall) hi
  have hr : ∀ item ∈ items, Recorded pattern.root tree bindings pending item := fun item hit =>
    recorded hf item fun part hpr =>
      Instr.parts_subset_of_mem ho (parts_item_subset hall (hi.subset hit) hpr)
  obtain ⟨ha, hrs⟩ := yields_matchItems_of hf ho hall hi hr hsp hs hfr hp
    awaited_self .start record hv
  refine ⟨_, _, rfl, ha, ?_⟩
  rcases hrs with hok | hb
  · exact .inl ⟨_, hok, leftmost_matchItems hsp⟩
  · exact .inr hb

/-- A letter before any siblings, in the tree of a letter. -/
theorem lists_divide_least_of_letter : ∃ grammar pattern tree, Grammar.build Grammar.loop = .ok grammar ∧
    compileGiven grammar (.form (.list [.symbol "seq", .string "a", .symbol "..."])) = .ok pattern ∧
      pattern.root = .siblings 0 [.text 1 "a", .ellipsis 2] none ∧
        tree = Tree.parse grammar (.ofText (Text.ofString "a")) Tree.defaultPath {} ∧
          ∃ result, (((matchItems tree 0 0 false [.text 1 "a", .ellipsis 2] (tree.significantChildren 0)
            (tree.significantChildren 0).length [] []).run).run {}).1 = .ok result ∧
              Leftmost tree false [.text 1 "a", .ellipsis 2] (tree.significantChildren 0) [] (isAccepted tree [])
                result := by
  obtain ⟨grammar, hb⟩ := Grammar.exists_build_loop
  have hp : compileGiven grammar (.form (.list [.symbol "seq", .string "a", .symbol "..."])) =
      .ok { source := (Sexp.list [.symbol "seq", .string "a", .symbol "..."]).text,
            root := .siblings 0 [.text 1 "a", .ellipsis 2] none, grammarName := grammar.name } := rfl
  refine ⟨grammar, _, _, hb, hp, rfl, rfl, ?_⟩
  obtain ⟨outcome, after, hrn, -, hr⟩ := (lists_divide_least hp
    (Tree.parse grammar (.ofText (Text.ofString "a")) Tree.defaultPath {})).2 _ (Instr.self_mem_parts _) _ _ rfl _
    suffix_rfl 0 _ suffix_rfl [] [] (forall_mem_nil _) allOf_nil {} Record.valid_empty
  rcases hr with ⟨result, rfl, hl⟩ | ⟨breakdown, -, hbr⟩
  · exact ⟨result, congrArg Prod.fst hrn, hl⟩
  · -- there is no guard that could break down
    obtain ⟨id, pred, bindings, ⟨part, hpr, -, hpre⟩, -⟩ := hbr
    have hpa : part = .siblings 0 [.text 1 "a", .ellipsis 2] none ∨ part = .text 1 "a" ∨ part = .ellipsis 2 := by
      simpa [Instr.parts, Instr.partsOfAll] using hpr
    rcases hpa with rfl | rfl | rfl <;> cases hpre

/-- The form of a text before any siblings, with a guard that asks for two alphabets. -/
def clashingForm : Sexp :=
  .list [.symbol "where", .list [.symbol "seq", .string "zzz", .symbol "..."], .string "\"a\" =~ \"(?a)(?u)a\""]

private theorem compileGiven_clashingForm (g : Grammar) : compileGiven g (.form clashingForm) =
    .ok { source := clashingForm.text, root := .siblings 0 [.text 1 "zzz", .ellipsis 2] (some clash),
          grammarName := g.name } := by
  have hs : shapeOf true clashingForm = .ok (.guarded (.siblings [.text "zzz", .ellipsis]) clash) := by
    rw [clashingForm, shapeOf, readGuard_clash]
    rfl
  have hg : checkGuard (Instr.surelyBindOfAll [.text 1 "zzz", .ellipsis 2]) clash = .ok () := by
    rw [checkGuard, references_clash]
    rfl
  have ht : checkTop g (.guarded (.siblings [.text "zzz", .ellipsis]) clash) =
      .ok (.siblings 0 [.text 1 "zzz", .ellipsis 2] (some clash)) := by
    change (checkGuard (Instr.surelyBindOfAll [.text 1 "zzz", .ellipsis 2]) clash >>= fun _ => _) = _
    rw [hg]
    rfl
  have hc : compileShape g clashingForm.text (.guarded (.siblings [.text "zzz", .ellipsis]) clash) =
      .ok { source := clashingForm.text, root := .siblings 0 [.text 1 "zzz", .ellipsis 2] (some clash),
            grammarName := g.name } := by
    rw [compileShape, ht]
  rw [compileGiven_form rfl, hs]
  exact hc

/-- A text that does not occur, before any siblings: nothing divides them, yet a guard ends the match with an error. -/
theorem matchItems_breaks_off_on_empty : ∃ grammar pattern tree, Grammar.build Grammar.loop = .ok grammar ∧
    compileGiven grammar (.form clashingForm) = .ok pattern ∧
      pattern.root = .siblings 0 [.text 1 "zzz", .ellipsis 2] (some clash) ∧
        tree = Tree.parse grammar (.ofText (Text.ofString "")) Tree.defaultPath {} ∧ ∀ parent siblings,
          (∀ lengths found, ¬ Admits tree false [.text 1 "zzz", .ellipsis 2] siblings []
            (isAccepted tree [.guard 0 clash]) lengths found) ∧
          (((matchItems tree 0 parent false [.text 1 "zzz", .ellipsis 2] siblings siblings.length []
            [.guard 0 clash]).run).run {}).1 = .error .alphabets := by
  obtain ⟨grammar, hb⟩ := Grammar.exists_build_loop
  refine ⟨grammar, _, _, hb, compileGiven_clashingForm grammar, rfl, rfl, fun parent siblings => ⟨?_, ?_⟩⟩
  · intro lengths found ha
    obtain ⟨sibling, rest, rfl, bound, hbn, -⟩ := (admits_fixed_iff (by decide)).1 ha
    rw [Plain.matchNode, text_eq_nil rfl, if_neg (by decide)] at hbn
    cases hbn
  · obtain ⟨after, haf⟩ := throws_matchItems (evaluate_found read_clash _ _ _ _) references_clash 0 parent false
      [.text 1 "zzz", .ellipsis 2] siblings siblings.length
    exact congrArg Prod.fst haf

end Match

end TreeLint
