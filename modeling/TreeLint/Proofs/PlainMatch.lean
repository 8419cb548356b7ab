import TreeLint.Proofs.PendingGuards

/-!
# Matching without a record

The plain way to match a pattern: nothing is remembered, a guard is looked at once the instruction or the list that it
guards has matched, and an ellipsis takes any number of siblings, from none on.

* `Plain.matchNode` and `Plain.matchItems` give what the first way to match binds;
* `Plain.sound`: what is found passes the check, and only names of the pattern are bound;
* `Plain.isLocal`: matching depends only on the names that the pattern and the check read;
* `Plain.le_of_matchItems`, `Plain.eq_of_matchItems`: how many siblings a list needs.
-/

namespace TreeLint

open List

variable {name : String}

namespace Pattern.Instr

/-- The instructions directly inside an instruction. -/
def children (instr : Instr) : List Instr :=
  instr.children?.getD []

/-- What holds of an instruction if it holds of those directly inside it holds of all. -/
theorem induction {motive : Instr → Prop}
    (step : ∀ instr : Instr, (∀ child ∈ instr.children, motive child) → motive instr) (instr : Instr) :
    motive instr := by
  have ho : ∀ {inner}, motive inner → ∀ child ∈ [inner], motive child := by
    intro inner hi child hc
    rwa [mem_singleton.1 hc]
  have hn : ∀ child ∈ ([] : List Instr), motive child := forall_mem_nil _
  exact @Instr.rec motive (fun instrs => ∀ instr ∈ instrs, motive instr)
    (fun _ _ _ => step _ hn) (fun _ _ _ _ ih => step _ ih) (fun _ => step _ hn) (fun _ => step _ hn)
    (fun _ _ _ ih => step _ (ho ih)) (fun _ _ => step _ hn) (fun _ _ => step _ hn) (fun _ _ => step _ hn)
    (fun _ _ _ => step _ hn) (fun _ _ ih => step _ ih) (fun _ _ ih => step _ (ho ih))
    (fun _ _ ih => step _ (ho ih)) (fun _ _ _ ih => step _ (ho ih)) (fun _ _ _ ih => step _ ih) hn
    (fun _ _ hf hr _ hm => (mem_cons.1 hm).elim (fun heq => heq ▸ hf) (hr _)) instr

/-- What a list of instructions has altogether is what its instructions have. -/
theorem ofAll_eq_flatMap {α : Type} {f : Instr → List α} {all : List Instr → List α} (hn : all [] = [])
    (hc : ∀ item items, all (item :: items) = f item ++ all items) (items : List Instr) :
    all items = items.flatMap f := by
  induction items with
  | nil => exact hn
  | cons item items ih => rw [hc, ih, flatMap_cons]

theorem mem_mayBindOfAll {items : List Instr} : name ∈ mayBindOfAll items ↔ ∃ item ∈ items, name ∈ item.mayBind := by
  rw [@ofAll_eq_flatMap _ mayBind mayBindOfAll rfl fun _ _ => rfl, mem_flatMap]

end Pattern.Instr

namespace Match

open Pattern (Instr)

def runBindings (item : Instr) (taken : List Nat) : Bindings :=
  match item.runName? with
  | some name => [(name, .run taken)]
  | none => []

namespace Plain

def accepted (bindings : Bindings) (check : Bindings → Bool) (bound : Bindings) : Option Bindings :=
  if check (bindings.add bound) then some bound else none

/-- How many of `count` siblings an ellipsis may take, in the order they are tried. At the end of a list that need not
take all siblings it takes all that are left. -/
def lengths (anchored : Bool) (rest : List Instr) (count : Nat) : List Nat :=
  if rest.isEmpty && !anchored then [count] else List.range (count + 1)

mutual

/-- The first way an instruction matches a node that passes a check: what it binds. -/
def matchNode (tree : Tree) (instr : Instr) (node : Nat) (bindings : Bindings) (check : Bindings → Bool) :
    Option Bindings :=
  match instr with
  | .kind _ _ kindId => if (tree.node node).kindId == kindId then accepted bindings check [] else none
  | .node _ _ kindId items =>
    if (tree.node node).kindId == kindId then
      (matchItems tree true items (tree.significantChildren node) bindings check).map (·.1)
    else none
  | .wildcard _ => accepted bindings check []
  | .text _ value => if tree.text node == Text.ofString value then accepted bindings check [] else none
  | .regex _ _ compiled => if compiled.isFoundIn (tree.text node) then accepted bindings check [] else none
  | .metavar _ name => accepted bindings check [(name, .one node)]
  | .capture _ name inner =>
    (matchNode tree inner node bindings fun found => check (found.put name (.one node))).map (·.put name (.one node))
  | .backref _ name =>
    if tree.text node == ((bindings.get? name).getD default).text tree then accepted bindings check [] else none
  | .oneOf _ options => matchOptions tree options node bindings check
  | .negation _ inner =>
    if (matchNode tree inner node bindings fun _ => true).isSome then none else accepted bindings check []
  | .deep _ inner =>
    ((node :: tree.descendants node).filter fun target => !(tree.node target).trivia).findSome?
      fun target => matchNode tree inner target bindings check
  | .guarded _ inner predicate =>
    matchNode tree inner node bindings fun found => predicate.isTrue tree found && check found
  | .ellipsis _ | .siblings _ _ _ => none

def matchOptions (tree : Tree) (options : List Instr) (node : Nat) (bindings : Bindings) (check : Bindings → Bool) :
    Option Bindings :=
  match options with
  | [] => none
  | option :: options =>
    (matchNode tree option node bindings check).or (matchOptions tree options node bindings check)

/-- The first way items match siblings: what it binds and how many siblings it leaves over. If `anchored`, none may be
left. -/
def matchItems (tree : Tree) (anchored : Bool) (items : List Instr) (siblings : List Nat) (bindings : Bindings)
    (check : Bindings → Bool) : Option (Bindings × Nat) :=
  match items with
  | [] => if anchored && siblings.length != 0 then none else (accepted bindings check []).map (·, siblings.length)
  | item :: rest =>
    if item.isEllipsis then
      (lengths anchored rest siblings.length).findSome? fun taken =>
        let bound := runBindings item (siblings.take taken)
        (matchItems tree anchored rest (siblings.drop taken) (bindings.add bound) check).map
          fun (others, left) => (bound.add others, left)
    else
      match siblings with
      | [] => none
      | sibling :: others =>
        match matchNode tree item sibling bindings fun _ => true with
        | none => none
        | some bound =>
          (matchItems tree anchored rest others (bindings.add bound) check).map
            fun (others, left) => (bound.add others, left)

end

variable {tree : Tree} {instr item : Instr} {items rest options : List Instr} {anchored : Bool} {siblings : List Nat}
  {node left : Nat} {bindings found bound : Bindings} {check : Bindings → Bool}

/-! ## Lists, case by case -/

/-- An ellipsis takes the first length with which the rest of the list is matched. -/
theorem matchItems_ellipsis (hi : item.isEllipsis) : matchItems tree anchored (item :: rest) siblings bindings check =
      (lengths anchored rest siblings.length).findSome? fun taken =>
        (matchItems tree anchored rest (siblings.drop taken) (bindings.add (runBindings item (siblings.take taken)))
          check).map fun (others, left) => ((runBindings item (siblings.take taken)).add others, left) := by
  rw [matchItems.eq_def]
  exact if_pos hi

theorem matchItems_fixed_nil (hi : ¬ item.isEllipsis) :
    matchItems tree anchored (item :: rest) [] bindings check = none := by
  rw [matchItems.eq_def]
  exact if_neg hi

/-- Any other item takes one sibling, with nothing left to check there. -/
theorem matchItems_fixed_cons (hi : ¬ item.isEllipsis) (sibling : Nat) :
    matchItems tree anchored (item :: rest) (sibling :: siblings) bindings check =
      match matchNode tree item sibling bindings fun _ => true with
      | none => none
      | some bound =>
        (matchItems tree anchored rest siblings (bindings.add bound) check).map
          fun (others, left) => (bound.add others, left) := by
  rw [matchItems.eq_def]
  exact if_neg hi

/-! ## What is found -/

theorem eq_of_accepted (h : accepted bindings check bound = some found) :
    found = bound ∧ check (bindings.add bound) := by
  unfold accepted at h
  split at h
  next hc => exact ⟨(Option.some.inj h).symm, hc⟩
  · cases h

/-- What is found is found for one of the options. -/
theorem exists_of_matchOptions (h : matchOptions tree options node bindings check = some found) :
    ∃ option ∈ options, matchNode tree option node bindings check = some found := by
  induction options with
  | nil => cases h
  | cons option options ih =>
    rw [matchOptions, Option.or_eq_some_iff] at h
    rcases h with h | ⟨-, h⟩
    · exact ⟨option, mem_cons_self, h⟩
    · obtain ⟨other, ho, hf⟩ := ih h
      exact ⟨other, mem_cons_of_mem _ ho, hf⟩

/-- What an item of a list binds, and the siblings that it leaves for the rest of the list. -/
inductive Takes (tree : Tree) (item : Instr) (siblings : List Nat) (bindings : Bindings) : Bindings → List Nat → Prop
  | run (hitem : item.isEllipsis) (taken : Nat) :
    Takes tree item siblings bindings (runBindings item (siblings.take taken)) (siblings.drop taken)
  | one (hitem : ¬ item.isEllipsis) {sibling : Nat} {later : List Nat} {bound : Bindings}
    (hsiblings : siblings = sibling :: later)
    (hbound : matchNode tree item sibling bindings (fun _ => true) = some bound) :
    Takes tree item siblings bindings bound later

/-- A list that is matched gives its first item some siblings and is matched behind them. -/
theorem exists_of_matchItems
    (h : matchItems tree anchored (item :: rest) siblings bindings check = some (found, left)) :
    ∃ bound later others, Takes tree item siblings bindings bound later ∧
      matchItems tree anchored rest later (bindings.add bound) check = some (others, left) ∧
      found = bound.add others := by
  by_cases hi : item.isEllipsis
  · rw [matchItems_ellipsis hi] at h
    obtain ⟨taken, -, ht⟩ := exists_of_findSome?_eq_some h
    obtain ⟨⟨others, left⟩, ho, heq⟩ := Option.map_eq_some_iff.1 ht
    cases heq
    exact ⟨_, _, others, .run hi taken, ho, rfl⟩
  · cases siblings with
    | nil =>
      rw [matchItems_fixed_nil hi] at h
      cases h
    | cons sibling siblings =>
      rw [matchItems_fixed_cons hi] at h
      split at h
      · cases h
      next bound hb =>
        obtain ⟨⟨others, left⟩, ho, heq⟩ := Option.map_eq_some_iff.1 h
        cases heq
        exact ⟨bound, siblings, others, .one hi rfl hb, ho, rfl⟩

/-- What is found passes the check, and it binds names that may be bound and all that are certainly bound. -/
structure Found (bindings : Bindings) (check : Bindings → Bool) (may sure : List String) (found : Bindings) : Prop where
  accepted : check (bindings.add found)
  mayBind : ∀ name ∈ found.names, name ∈ may
  surelyBinds : ∀ name ∈ sure, name ∈ found.names

def Sound (tree : Tree) (instr : Instr) : Prop :=
  ∀ (node : Nat) (bindings : Bindings) (check : Bindings → Bool) (found : Bindings),
    matchNode tree instr node bindings check = some found → Found bindings check instr.mayBind instr.surelyBinds found

private theorem found_accepted {names : List String} (hn : bound.names = names)
    (h : accepted bindings check bound = some found) : Found bindings check names names found := by
  obtain ⟨rfl, hc⟩ := eq_of_accepted h
  exact ⟨hc, hn ▸ fun _ => id, hn ▸ fun _ => id⟩

theorem mem_mayBind_of_runBindings {taken : List Nat} {name : String}
    (h : name ∈ (runBindings item taken).names) : name ∈ item.mayBind := by
  cases item with
  | capture id bound inner =>
    obtain rfl : name = bound := by simpa [runBindings, Instr.runName?, Bindings.names] using h
    exact mem_append_right _ mem_cons_self
  | _ => cases h

theorem mem_names_runBindings (hi : item.isEllipsis) (taken : List Nat)
    (hn : name ∈ item.surelyBinds) : name ∈ (runBindings item taken).names := by
  cases item with
  | capture id bound inner =>
    cases inner with
    | ellipsis => exact hn
    | _ => cases hi
  | ellipsis => cases hn
  | _ => cases hi

/-- A name that every option certainly binds is certainly bound by each. -/
theorem mem_surelyBinds_of_mem_each {option : Instr} (ho : option ∈ options)
    (hn : name ∈ Instr.surelyBindOfEach options) : name ∈ option.surelyBinds := by
  induction options with
  | nil => cases ho
  | cons first options ih =>
    cases options with
    | nil =>
      rw [mem_singleton.1 ho]
      exact hn
    | cons second options =>
      obtain ⟨hf, hr⟩ := mem_filter.1 hn
      rcases mem_cons.1 ho with rfl | ho
      · exact hf
      · exact ih ho (contains_iff_mem.1 hr)

theorem Takes.names {later : List Nat} (hs : Sound tree item) (h : Takes tree item siblings bindings bound later) :
    (∀ name ∈ bound.names, name ∈ item.mayBind) ∧ ∀ name ∈ item.surelyBinds, name ∈ bound.names := by
  cases h with
  | run hi taken => exact ⟨fun _ => mem_mayBind_of_runBindings, fun _ => mem_names_runBindings hi _⟩
  | one hi hsb hb =>
    have hf := hs _ _ _ _ hb
    exact ⟨hf.mayBind, hf.surelyBinds⟩

private theorem matchItems_sound_of (hi : ∀ item ∈ items, Sound tree item)
    (h : matchItems tree anchored items siblings bindings check = some (found, left)) :
    Found bindings check (Instr.mayBindOfAll items) (Instr.surelyBindOfAll items) found := by
  induction items generalizing siblings bindings found left with
  | nil =>
    rw [matchItems] at h
    split at h
    · cases h
    · obtain ⟨bound, hb, heq⟩ := Option.map_eq_some_iff.1 h
      cases heq
      exact found_accepted rfl hb
  | cons item rest ih =>
    obtain ⟨bound, later, others, ht, ho, rfl⟩ := exists_of_matchItems h
    obtain ⟨hm, hs⟩ := ht.names (hi item mem_cons_self)
    have hr := ih (forall_mem_cons.1 hi).2 ho
    refine ⟨Bindings.add_assoc bound others ▸ hr.accepted, fun name hn => ?_, fun name hn => ?_⟩
    · exact mem_append.2 ((Bindings.mem_names_add.1 hn).imp (hm name) (hr.mayBind name))
    · exact Bindings.mem_names_add.2 ((mem_append.1 hn).imp (hs name) (hr.surelyBinds name))

/-- What is found binds what the instruction should bind and passes the check. -/
theorem sound (tree : Tree) (instr : Instr) : Sound tree instr := by
  induction instr using Instr.induction with
  | step instr ih =>
    intro node bindings check found h
    cases instr with
    | kind | text | regex | backref =>
      rw [matchNode] at h
      split at h
      · exact found_accepted rfl h
      · cases h
    | wildcard | metavar => exact found_accepted rfl h
    | ellipsis | siblings => cases h
    | node id name kindId items =>
      rw [matchNode] at h
      split at h
      · obtain ⟨⟨same, left⟩, hf, rfl⟩ := Option.map_eq_some_iff.1 h
        exact matchItems_sound_of ih hf
      · cases h
    | capture id name inner =>
      obtain ⟨bound, hb, rfl⟩ := Option.map_eq_some_iff.1 h
      obtain ⟨hc, hm, hs⟩ := ih inner mem_cons_self _ _ _ _ hb
      refine ⟨Bindings.add_put name (.one node) ▸ hc, fun other ho => ?_, fun other ho => ?_⟩
      · exact mem_append.2 ((Bindings.mem_names_put.1 ho).imp (hm other) mem_singleton.2)
      · exact Bindings.mem_names_put.2 ((mem_append.1 ho).imp (hs other) mem_singleton.1)
    | oneOf id options =>
      obtain ⟨option, hop, hf⟩ := exists_of_matchOptions h
      obtain ⟨hc, hm, hs⟩ := ih option hop _ _ _ _ hf
      exact ⟨hc, fun name hn => Instr.mem_mayBindOfAll.2 ⟨option, hop, hm name hn⟩,
        fun name hn => hs name (mem_surelyBinds_of_mem_each hop hn)⟩
    | negation id inner =>
      rw [matchNode] at h
      split at h
      · cases h
      · exact found_accepted rfl h
    | deep id inner =>
      obtain ⟨target, -, ht⟩ := exists_of_findSome?_eq_some h
      exact ih inner mem_cons_self _ _ _ _ ht
    | guarded id inner pred =>
      obtain ⟨hc, hm, hs⟩ := ih inner mem_cons_self _ _ _ _ h
      exact ⟨(Bool.and_eq_true_iff.1 hc).2, hm, hs⟩

theorem matchItems_sound (h : matchItems tree anchored items siblings bindings check = some (found, left)) :
    Found bindings check (Instr.mayBindOfAll items) (Instr.surelyBindOfAll items) found :=
  matchItems_sound_of (fun item _ => sound tree item) h

/-! ## What matching depends on -/

section

open Predicate (Agree)

/-- An instruction depends only on the names that it reads, and on the check for what it may bind. -/
def Local (tree : Tree) (instr : Instr) : Prop :=
  ∀ (node : Nat) (bindings others : Bindings) (check same : Bindings → Bool), Agree instr.reads bindings others →
    (∀ bound : Bindings, (∀ name ∈ bound.names, name ∈ instr.mayBind) →
      check (bindings.add bound) = same (others.add bound)) →
        matchNode tree instr node bindings check = matchNode tree instr node others same

private theorem agree_add {names : List String} {others : Bindings} (h : Agree names bindings others)
    (bound : Bindings) :
    Agree names (bindings.add bound) (others.add bound) :=
  fun name hn => Bindings.get?_add_congr (h name hn)

variable {others : Bindings} {same : Bindings → Bool}

private theorem accepted_congr {names : List String} (hb : ∀ name ∈ bound.names, name ∈ names)
    (hc : ∀ bound : Bindings, (∀ name ∈ bound.names, name ∈ names) →
      check (bindings.add bound) = same (others.add bound)) :
    accepted bindings check bound = accepted others same bound := by
  rw [accepted, accepted, hc bound hb]

private theorem matchOptions_congr_of (ho : ∀ option ∈ options, Local tree option)
    (ha : Agree (Instr.readsOfAll options) bindings others)
    (hc : ∀ bound : Bindings, (∀ name ∈ bound.names, name ∈ Instr.mayBindOfAll options) →
      check (bindings.add bound) = same (others.add bound)) :
    matchOptions tree options node bindings check = matchOptions tree options node others same := by
  induction options with
  | nil => rfl
  | cons option options ih =>
    rw [matchOptions, matchOptions, ho option mem_cons_self node bindings others check same ha.left
      fun bound hb => hc bound fun name hn => mem_append_left _ (hb name hn),
      ih (forall_mem_cons.1 ho).2 ha.right fun bound hb => hc bound fun name hn => mem_append_right _ (hb name hn)]

private theorem check_add (hb : ∀ name ∈ bound.names, name ∈ item.mayBind)
    (hc : ∀ bound : Bindings, (∀ name ∈ bound.names, name ∈ Instr.mayBindOfAll (item :: rest)) →
      check (bindings.add bound) = same (others.add bound)) (later : Bindings)
    (hl : ∀ name ∈ later.names, name ∈ Instr.mayBindOfAll rest) :
    check ((bindings.add bound).add later) = same ((others.add bound).add later) := by
  rw [← Bindings.add_assoc, ← Bindings.add_assoc]
  refine hc _ fun name hn => ?_
  exact mem_append.2 ((Bindings.mem_names_add.1 hn).imp (hb name) (hl name))

private theorem matchItems_congr_of (hi : ∀ item ∈ items, Local tree item)
    (ha : Agree (Instr.readsOfAll items) bindings others)
    (hc : ∀ bound : Bindings, (∀ name ∈ bound.names, name ∈ Instr.mayBindOfAll items) →
      check (bindings.add bound) = same (others.add bound)) :
    matchItems tree anchored items siblings bindings check = matchItems tree anchored items siblings others same := by
  induction items generalizing siblings bindings others with
  | nil =>
    rw [matchItems, matchItems, accepted_congr (forall_mem_nil _) hc]
  | cons item rest ih =>
    have hr := (forall_mem_cons.1 hi).2
    by_cases hit : item.isEllipsis
    · rw [matchItems_ellipsis hit, matchItems_ellipsis hit]
      congr 1
      funext taken
      rw [ih hr (agree_add ha.right _) (check_add (fun _ => mem_mayBind_of_runBindings) hc)]
    · cases siblings with
      | nil => rw [matchItems_fixed_nil hit, matchItems_fixed_nil hit]
      | cons sibling siblings =>
        rw [matchItems_fixed_cons hit, matchItems_fixed_cons hit, hi item mem_cons_self sibling bindings
          others _ (fun _ => true) ha.left fun _ _ => rfl]
        split
        · rfl
        next bound hb =>
          rw [ih hr (agree_add ha.right _) (check_add (sound tree item _ _ _ _ hb).mayBind hc)]

/-- What is found depends on the names that the instruction reads and on the check alone. -/
theorem isLocal (tree : Tree) (instr : Instr) : Local tree instr := by
  induction instr using Instr.induction with
  | step instr ih =>
    intro node bindings others check same ha hc
    have hn : ∀ name ∈ Bindings.names [], name ∈ instr.mayBind := forall_mem_nil _
    have hac := accepted_congr hn hc
    cases instr with
    | kind | text | regex | wildcard => rw [matchNode, matchNode, hac]
    | ellipsis | siblings => rfl
    | metavar id name => exact accepted_congr (fun _ ho => ho) hc
    | backref id name => rw [matchNode, matchNode, hac, ha name mem_cons_self]
    | node id name kindId items =>
      have hi : ∀ item ∈ items, Local tree item := ih
      rw [matchNode, matchNode, matchItems_congr_of hi ha hc]
    | capture id name inner =>
      rw [matchNode, matchNode]
      refine congrArg _ (ih inner mem_cons_self node _ _ _ _ ha fun bound hb => ?_)
      rw [← Bindings.add_put, ← Bindings.add_put]
      refine hc _ fun other ho => ?_
      exact mem_append.2 ((Bindings.mem_names_put.1 ho).imp (hb other) mem_singleton.2)
    | oneOf id options => exact matchOptions_congr_of ih ha hc
    | negation id inner =>
      rw [matchNode, matchNode, hac, ih inner mem_cons_self node bindings others _ (fun _ => true)
        ha fun _ _ => rfl]
    | deep id inner =>
      rw [matchNode, matchNode]
      congr 1
      funext target
      exact ih inner mem_cons_self target _ _ _ _ ha hc
    | guarded id inner pred =>
      refine ih inner mem_cons_self node _ _ _ _ ha.left fun bound hb => ?_
      rw [pred.isTrue_congr (agree_add ha.right bound), hc bound hb]

theorem matchItems_congr (ha : Agree (Instr.readsOfAll items) bindings others)
    (hc : ∀ bound : Bindings, (∀ name ∈ bound.names, name ∈ Instr.mayBindOfAll items) →
      check (bindings.add bound) = same (others.add bound)) :
    matchItems tree anchored items siblings bindings check = matchItems tree anchored items siblings others same :=
  matchItems_congr_of (fun item _ => isLocal tree item) ha hc

end

/-! ## How many siblings a list needs -/

/-- There are siblings enough for the items that are no ellipses. -/
theorem le_of_matchItems (h : matchItems tree anchored items siblings bindings check = some (found, left)) :
    items.countP (!·.isEllipsis) ≤ siblings.length := by
  induction items generalizing siblings bindings found left with
  | nil => exact Nat.zero_le _
  | cons item rest ih =>
    obtain ⟨bound, later, others, ht, ho, -⟩ := exists_of_matchItems h
    have hle := ih ho
    rw [countP_cons]
    cases ht with
    | run hi taken =>
      rw [length_drop] at hle
      simp only [hi, Bool.not_true, Bool.false_eq_true, if_false]
      omega
    | one hi hs hb =>
      rw [hs, length_cons]
      split <;> omega

theorem matchItems_eq_none_of_lt (h : siblings.length < items.countP (!·.isEllipsis)) :
    matchItems tree anchored items siblings bindings check = none := by
  cases hf : matchItems tree anchored items siblings bindings check with
  | none => rfl
  | some found => exact absurd (le_of_matchItems hf) (Nat.not_le.2 h)

/-- A list without ellipsis takes exactly as many siblings as it has items. -/
theorem eq_of_matchItems (hi : items.any (·.isEllipsis) = false)
    (h : matchItems tree true items siblings bindings check = some (found, left)) :
    siblings.length = items.countP (!·.isEllipsis) := by
  induction items generalizing siblings bindings found left with
  | nil =>
    rw [matchItems] at h
    split at h
    · cases h
    next hl => simpa using hl
  | cons item rest ih =>
    rw [any_cons, Bool.or_eq_false_iff] at hi
    obtain ⟨bound, later, others, ht, ho, -⟩ := exists_of_matchItems h
    cases ht with
    | run hit => cases hi.1.symm.trans hit
    | one hit hs hb =>
      rw [hs, length_cons, ih hi.2 ho, countP_cons, hi.1]
      rfl

/-! ## How many siblings an ellipsis takes -/

section

variable {α : Type} {f : Nat → Option α} {count : Nat}

private theorem findSome?_range_of_le {few many : Nat} (hle : few ≤ many)
    (hn : ∀ number, few ≤ number → number < many → f number = none) :
    (List.range many).findSome? f = (List.range few).findSome? f := by
  induction hle with
  | refl => rfl
  | step hle ih =>
    rw [range_succ, findSome?_append, ih fun number hf hm => hn number hf (Nat.lt_succ_of_lt hm),
      findSome?_singleton, hn _ hle (Nat.lt_succ_self _), Option.or_none]

private theorem findSome?_range_eq {here many : Nat} (hlt : here < many)
    (hn : ∀ number < many, number ≠ here → f number = none) : (List.range many).findSome? f = f here := by
  have hb : (List.range here).findSome? f = none := by
    rw [findSome?_eq_none_iff]
    intro number hnm
    rw [mem_range] at hnm
    exact hn number (Nat.lt_trans hnm hlt) (Nat.ne_of_lt hnm)
  rw [findSome?_range_of_le hlt fun number hh hm => hn number hm (Nat.ne_of_gt hh), range_succ,
    findSome?_append, hb, Option.none_or, findSome?_singleton]

/-- Numbers of siblings that leave too few, or too many, for the rest need not be tried. -/
private theorem findSome?_takes
    (hle : ∀ taken found, f taken = some found → rest.countP (!·.isEllipsis) ≤ count - taken)
    (heq : anchored → rest.any (·.isEllipsis) = false → ∀ taken found, f taken = some found →
      count - taken = rest.countP (!·.isEllipsis)) :
    (takes anchored rest count).findSome? f = (lengths anchored rest count).findSome? f := by
  have hn : ∀ {taken}, ¬ rest.countP (!·.isEllipsis) ≤ count - taken → f taken = none := by
    intro taken hnt
    cases hf : f taken with
    | none => rfl
    | some found => exact absurd (hle taken found hf) hnt
  unfold takes
  dsimp only
  split
  next hfw =>
    -- the rest cannot match, whatever is taken
    have ha : ∀ taken, f taken = none := fun taken => hn (by omega)
    symm
    rw [findSome?_nil, findSome?_eq_none_iff]
    exact fun taken _ => ha taken
  next he =>
    split
    next hc =>
      by_cases ho : anchored
      · -- no other ellipsis follows and nothing may be left, so only one number fits
        have han : rest.any (·.isEllipsis) = false := by
          rcases Bool.or_eq_true_iff.1 hc with hem | hc
          · rw [List.isEmpty_iff.1 hem]
            rfl
          · simpa [ho] using hc
        rw [lengths, ho, Bool.not_true, Bool.and_false, if_neg Bool.false_ne_true, findSome?_singleton]
        refine (findSome?_range_eq (by omega) fun taken ht hne => ?_).symm
        cases hf : f taken with
        | none => rfl
        | some found =>
          have := heq ho han taken found hf
          omega
      · have hem : rest = [] := by simpa [ho] using hc
        subst hem
        simp [lengths, ho]
    next ho =>
      have hs : rest.isEmpty = false := by
        cases hem : rest.isEmpty with
        | false => rfl
        | true => simp [hem] at ho
      rw [lengths, hs, Bool.false_and, if_neg Bool.false_ne_true]
      -- the numbers that are left out would leave too few siblings
      exact (findSome?_range_of_le (by omega) fun taken _ _ => hn (by omega)).symm

/-- An ellipsis need only take as many siblings as the rest of its list can spare. -/
theorem matchItems_takes (hi : item.isEllipsis) : matchItems tree anchored (item :: rest) siblings bindings check =
      (takes anchored rest siblings.length).findSome? fun taken =>
        (matchItems tree anchored rest (siblings.drop taken) (bindings.add (runBindings item (siblings.take taken)))
          check).map fun (others, left) => ((runBindings item (siblings.take taken)).add others, left) := by
  rw [matchItems_ellipsis hi, findSome?_takes]
  · intro taken found hf
    obtain ⟨⟨others, left⟩, ho, -⟩ := Option.map_eq_some_iff.1 hf
    have := le_of_matchItems ho
    rwa [length_drop] at this
  · intro ha han taken found hf
    obtain ⟨⟨others, left⟩, ho, -⟩ := Option.map_eq_some_iff.1 hf
    rw [ha] at ho
    have := eq_of_matchItems han ho
    rwa [length_drop] at this

end

end Plain

end Match

end TreeLint
