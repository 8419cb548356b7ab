import TreeLint.Proofs.PatternScope

/-!
# The texts of guards

A guard keeps the text that it was read from, for reports. Nothing else in a pattern depends on it.

* `Pattern.Instr.bare`: an instruction without the texts of its guards;
* `Pattern.Instr.entries`: what stands in each instruction, as far as matching is concerned;
* `Pattern.Instr.entries_bare`: this does not depend on the texts of guards;
* `Pattern.checkTop_bare`: neither does what becomes of a shape.
-/

namespace TreeLint

open List

/-- What comes of a computation, with its value and its fault seen as others. -/
def seenAs (f : α → β) (g : ε → δ) (outcome : Except (Stop ε) α) : Except (Stop δ) β :=
  (outcome.map f).mapError (Stop.map g)

theorem seenAs_bind {f : α → β} {f' : α' → β'} {g : ε → δ} {outcome : Except (Stop ε) α}
    {next : α → Except (Stop ε) α'} {next' : β → Except (Stop δ) β'}
    (h : ∀ value, next' (f value) = seenAs f' g (next value)) :
    seenAs f g outcome >>= next' = seenAs f' g (outcome >>= next) := by
  cases outcome with
  | error stop => rfl
  | ok value => exact h value

def Predicate.bare (predicate : Predicate) : Predicate :=
  { predicate with source := "" }

namespace Pattern

namespace Instr

mutual

def bare : Instr → Instr
  | node id name kindId items => node id name kindId (bareAll items)
  | oneOf id options => oneOf id (bareAll options)
  | siblings id items guard => siblings id (bareAll items) (guard.map Predicate.bare)
  | capture id name inner => capture id name inner.bare
  | negation id inner => negation id inner.bare
  | deep id inner => deep id inner.bare
  | guarded id inner predicate => guarded id inner.bare predicate.bare
  | instr => instr

def bareAll : List Instr → List Instr
  | [] => []
  | item :: items => item.bare :: bareAll items

end

private theorem bareAll_eq_map (items : List Instr) : bareAll items = items.map bare := by
  induction items with
  | nil => rfl
  | cons item items ih => rw [bareAll, ih, map_cons]

private theorem isEllipsis_bare (instr : Instr) : instr.bare.isEllipsis = instr.isEllipsis := by
  cases instr with
  | capture id name inner => cases inner <;> rfl
  | _ => rfl

/-- Two instructions that are as large as each other and bind, read and match the same. -/
structure Alike (first second : Instr) : Prop where
  size_eq : first.size = second.size
  reads_eq : first.reads = second.reads
  mayBind_eq : first.mayBind = second.mayBind
  surelyBinds_eq : first.surelyBinds = second.surelyBinds
  runNames_eq : first.runNames = second.runNames
  kindsMatched_eq : first.kindsMatched = second.kindsMatched

/-- Two lists of instructions that are as large as each other and bind, read and match the same. -/
structure AlikeAll (first second : List Instr) : Prop where
  size_eq : sizeOfAll first = sizeOfAll second
  reads_eq : readsOfAll first = readsOfAll second
  mayBind_eq : mayBindOfAll first = mayBindOfAll second
  surelyBind_eq : surelyBindOfAll first = surelyBindOfAll second
  surelyBindEach_eq : surelyBindOfEach first = surelyBindOfEach second
  runNames_eq : runNamesOfAll first = runNamesOfAll second
  kindsMatched_eq : kindsMatchedOfAll first = kindsMatchedOfAll second

theorem surelyBindOfEach_cons_cons (first second : Instr) (others : List Instr) :
    surelyBindOfEach (first :: second :: others) =
      first.surelyBinds.filter (surelyBindOfEach (second :: others)).contains := by
  rw [surelyBindOfEach]
  simp

private theorem alikeAll_bareAll {items : List Instr} (h : ∀ item ∈ items, Alike item.bare item) :
    AlikeAll (bareAll items) items := by
  induction items with
  | nil => exact ⟨rfl, rfl, rfl, rfl, rfl, rfl, rfl⟩
  | cons item items ih =>
    have hi := h item mem_cons_self
    have hit := ih (forall_mem_cons.1 h).2
    constructor
    · rw [bareAll, sizeOfAll, sizeOfAll, hi.size_eq, hit.size_eq]
    · rw [bareAll, readsOfAll, readsOfAll, hi.reads_eq, hit.reads_eq]
    · rw [bareAll, mayBindOfAll, mayBindOfAll, hi.mayBind_eq, hit.mayBind_eq]
    · rw [bareAll, surelyBindOfAll, surelyBindOfAll, hi.surelyBinds_eq, hit.surelyBind_eq]
    · cases items with
      | nil => exact hi.surelyBinds_eq
      | cons next items =>
        have hr := hit.surelyBindEach_eq
        rw [bareAll] at hr
        rw [bareAll, bareAll, surelyBindOfEach_cons_cons, surelyBindOfEach_cons_cons, hi.surelyBinds_eq, hr]
    · rw [bareAll, runNamesOfAll, runNamesOfAll, hi.runNames_eq, hit.runNames_eq]
    · rw [bareAll, kindsMatchedOfAll, kindsMatchedOfAll, hi.kindsMatched_eq, hit.kindsMatched_eq]

/-- An instruction without the sources of its guards binds and reads the same names. -/
theorem alike_bare (instr : Instr) : Alike instr.bare instr := by
  induction instr using Instr.induction with
  | step instr ih =>
    cases instr with
    | node id name kindId items =>
      have ha := alikeAll_bareAll ih
      exact ⟨congrArg (· + 1) ha.size_eq, ha.reads_eq, ha.mayBind_eq, ha.surelyBind_eq, ha.runNames_eq, rfl⟩
    | oneOf id options =>
      have ha := alikeAll_bareAll ih
      exact ⟨congrArg (· + 1) ha.size_eq, ha.reads_eq, ha.mayBind_eq, ha.surelyBindEach_eq, ha.runNames_eq,
        congrArg unionKinds ha.kindsMatched_eq⟩
    | siblings id items guard =>
      have ha : AlikeAll (bareAll items) items := alikeAll_bareAll ih
      refine ⟨congrArg (· + 1) ha.size_eq, ?_, ha.mayBind_eq, ha.surelyBind_eq, ha.runNames_eq, rfl⟩
      rw [bare, reads, reads, ha.reads_eq, Option.map_map]
      rfl
    | capture id name inner =>
      have hi := ih inner mem_cons_self
      refine ⟨congrArg (· + 1) hi.size_eq, hi.reads_eq, congrArg (· ++ [name]) hi.mayBind_eq,
        congrArg (· ++ [name]) hi.surelyBinds_eq, ?_, hi.kindsMatched_eq⟩
      cases inner with
      | ellipsis => rfl
      | _ => exact hi.runNames_eq
    | negation id inner =>
      have hi := ih inner mem_cons_self
      exact ⟨congrArg (· + 1) hi.size_eq, hi.reads_eq, rfl, rfl, hi.runNames_eq, rfl⟩
    | deep id inner =>
      have hi := ih inner mem_cons_self
      exact ⟨congrArg (· + 1) hi.size_eq, hi.reads_eq, hi.mayBind_eq, hi.surelyBinds_eq, hi.runNames_eq, rfl⟩
    | guarded id inner pred =>
      have hi := ih inner mem_cons_self
      exact ⟨congrArg (· + 1) hi.size_eq, congrArg (· ++ pred.references) hi.reads_eq, hi.mayBind_eq,
        hi.surelyBinds_eq, hi.runNames_eq, hi.kindsMatched_eq⟩
    | _ => exact ⟨rfl, rfl, rfl, rfl, rfl, rfl⟩

private theorem alikeAll_bare (items : List Instr) : AlikeAll (bareAll items) items :=
  alikeAll_bareAll fun item _ => item.alike_bare

/-! ## What stands in an instruction -/

def kindId? : Instr → Option Nat
  | kind _ _ kindId | node _ _ kindId _ => some kindId
  | _ => none

/-- What stands in an instruction, with those inside it given by their numbers. -/
structure Entry where
  word : String
  id : Nat
  name : Option String
  value : Option String
  kindId : Option Nat
  guard : Option Predicate.Expr
  refs : List String
  restFixed : List Nat
  restOpen : List Bool
  suffixRefs : List (List String)
  children : Option (List Nat)

def entry (instr : Instr) : Entry where
  word := instr.word
  id := instr.id
  name := instr.name?
  value := instr.value?
  kindId := instr.kindId?
  guard := instr.predicate?.map Predicate.expr
  refs := instr.refs
  restFixed := Instr.restFixed instr.children
  restOpen := Instr.restOpen instr.children
  suffixRefs := Instr.suffixRefs instr.children
  children := instr.children?.map (·.map Instr.id)

/-- What stands in an instruction and in those inside it, in preorder. -/
def entries (instr : Instr) : List Entry :=
  instr.parts.map entry

private theorem id_bare (instr : Instr) : instr.bare.id = instr.id := by
  cases instr <;> rfl

private theorem children?_bare (instr : Instr) : instr.bare.children? = instr.children?.map bareAll := by
  cases instr <;> rfl

private theorem children_bare (instr : Instr) : instr.bare.children = bareAll instr.children := by
  rw [children, children, children?_bare]
  cases instr.children? <;> rfl

private theorem restFixed_bareAll (items : List Instr) : restFixed (bareAll items) = restFixed items := by
  induction items with
  | nil => rfl
  | cons item items ih =>
    rw [bareAll, restFixed, restFixed, ih, bareAll_eq_map, countP_map]
    exact congrArg (· :: _) (countP_congr fun other _ => by simp [isEllipsis_bare])

private theorem restOpen_bareAll (items : List Instr) : restOpen (bareAll items) = restOpen items := by
  induction items with
  | nil => rfl
  | cons item items ih =>
    rw [bareAll, restOpen, restOpen, ih, bareAll_eq_map, any_map]
    simp [Function.comp_def, isEllipsis_bare]

private theorem suffixRefs_bareAll (items : List Instr) : suffixRefs (bareAll items) = suffixRefs items := by
  induction items with
  | nil => rfl
  | cons item items ih =>
    have hr := (alikeAll_bare (item :: items)).reads_eq
    rw [bareAll] at hr
    rw [bareAll, suffixRefs, suffixRefs, ih, hr]

private theorem entry_bare (instr : Instr) : instr.bare.entry = instr.entry := by
  have hg : instr.bare.predicate?.map Predicate.expr = instr.predicate?.map Predicate.expr := by
    cases instr with
    | siblings id items guard => cases guard <;> rfl
    | _ => rfl
  have hi : (instr.children?.map bareAll).map (·.map Instr.id) = instr.children?.map (·.map Instr.id) := by
    rw [Option.map_map]
    congr 1
    funext items
    simp [bareAll_eq_map, Function.comp_def, id_bare]
  have ho : instr.bare.word = instr.word ∧ instr.bare.name? = instr.name? ∧ instr.bare.value? = instr.value? ∧
      instr.bare.kindId? = instr.kindId? := by
    cases instr <;> exact ⟨rfl, rfl, rfl, rfl⟩
  obtain ⟨hw, hn, hv, hk⟩ := ho
  rw [entry, entry, hw, hn, hv, hk, hg, id_bare, refs, refs, instr.alike_bare.reads_eq, children_bare,
    restFixed_bareAll, restOpen_bareAll, suffixRefs_bareAll, children?_bare, hi]

private theorem parts_bare (instr : Instr) : instr.bare.parts = instr.parts.map bare := by
  induction instr using Instr.induction with
  | step instr ih =>
    have ha : ∀ items : List Instr, (∀ item ∈ items, item.bare.parts = item.parts.map bare) →
        partsOfAll (bareAll items) = (partsOfAll items).map bare := by
      intro items hi
      induction items with
      | nil => rfl
      | cons item items ih =>
        rw [bareAll, partsOfAll, partsOfAll, map_append, hi item mem_cons_self, ih (forall_mem_cons.1 hi).2]
    rw [parts_eq, parts_eq instr, map_cons, children_bare, ha _ ih]

/-- What stands in the instructions does not depend on the texts of guards. -/
theorem entries_bare (instr : Instr) : instr.bare.entries = instr.entries := by
  rw [entries, entries, parts_bare, map_map]
  exact map_congr_left fun part _ => part.entry_bare

end Instr

/-! ## Checking -/

mutual

def Shape.bare : Shape → Shape
  | .node name items => .node name (Shape.bareAll items)
  | .oneOf options => .oneOf (Shape.bareAll options)
  | .siblings items => .siblings (Shape.bareAll items)
  | .capture name inner => .capture name inner.bare
  | .negation inner => .negation inner.bare
  | .deep inner => .deep inner.bare
  | .guarded inner predicate => .guarded inner.bare predicate.bare
  | shape => shape

def Shape.bareAll : List Shape → List Shape
  | [] => []
  | shape :: shapes => shape.bare :: Shape.bareAll shapes

end

private theorem Shape.isEllipsis_bare (shape : Shape) : shape.bare.isEllipsis = shape.isEllipsis := by
  cases shape with
  | capture name inner => cases inner <;> rfl
  | _ => rfl

private theorem Shape.bare_eq_ellipsis_iff {shape : Shape} : shape.bare = .ellipsis ↔ shape = .ellipsis := by
  cases shape <;> simp [Shape.bare]

def Defect.bare : Defect → Defect
  | unboundGuard _ names => unboundGuard "" names
  | defect => defect

theorem Defect.code_bare (defect : Defect) : defect.bare.code = defect.code := by
  cases defect <;> rfl

private theorem checkGuard_bare (available : List String) (pred : Predicate) :
    checkGuard available pred.bare = seenAs id Defect.bare (checkGuard available pred) := by
  unfold checkGuard
  simp only [show pred.bare.references = pred.references from rfl]
  split <;> rfl

variable {grammar : Grammar}

/-- What a shape is checked to does not depend on the texts of guards. -/
def Unaffected (grammar : Grammar) (shape : Shape) : Prop :=
  ∀ (sure possible : List String) (inList : Bool) (id : Nat), check grammar sure possible inList id shape.bare =
      seenAs Instr.bare Defect.bare (check grammar sure possible inList id shape)

private theorem checkItems_bare {items : List Shape} (hi : ∀ item ∈ items, Unaffected grammar item)
    (sure possible : List String) (id : Nat) :
    checkItems grammar sure possible id (Shape.bareAll items) =
      seenAs Instr.bareAll Defect.bare (checkItems grammar sure possible id items) := by
  induction items generalizing sure possible id with
  | nil => rfl
  | cons item items ih =>
    rw [Shape.bareAll, checkItems, checkItems, hi item mem_cons_self]
    refine seenAs_bind fun first => ?_
    have hf := first.alike_bare
    rw [hf.surelyBinds_eq, hf.mayBind_eq, hf.size_eq, ih (forall_mem_cons.1 hi).2]
    exact seenAs_bind fun rest => rfl

private theorem checkOptions_bare {options : List Shape} (ho : ∀ option ∈ options, Unaffected grammar option)
    (sure possible : List String) (id : Nat) :
    checkOptions grammar sure possible id (Shape.bareAll options) =
      seenAs Instr.bareAll Defect.bare (checkOptions grammar sure possible id options) := by
  induction options generalizing id with
  | nil => rfl
  | cons option options ih =>
    by_cases hop : option = .ellipsis
    · subst hop
      rfl
    · rw [Shape.bareAll, checkOptions.eq_3 _ _ _ _ _ _ hop, checkOptions.eq_3 _ _ _ _ _ _
        (fun h => hop (Shape.bare_eq_ellipsis_iff.1 h)), ho option mem_cons_self]
      refine seenAs_bind fun first => ?_
      rw [first.alike_bare.size_eq, ih (forall_mem_cons.1 ho).2]
      exact seenAs_bind fun rest => rfl

private theorem check_capture {inner : Shape} (hi : inner ≠ .ellipsis) (sure possible : List String) (inList : Bool)
    (id : Nat) (name : String) :
    check grammar sure possible inList id (.capture name inner) = if possible.contains name then fail (.boundTwice name)
      else do
        let inner ← check grammar sure possible false (id + 1) inner
        if inner.mayBind.contains name then fail (.boundTwice name)
        return .capture id name inner := by
  rw [check]
  exact hi

private theorem unaffected (grammar : Grammar) (shape : Shape) : Unaffected grammar shape := by
  induction shape using Shape.induction with
  | step shape ih =>
    intro sure possible inList id
    cases shape with
    | kind name =>
      change check grammar sure possible inList id (.kind name) = _
      rw [check]
      cases grammar.kindId? name <;> rfl
    | node name items =>
      have hi := @checkItems_bare _ items ih
      rw [Shape.bare, check, check]
      cases grammar.kindId? name with
      | none => rfl
      | some kindId =>
        rw [hi]
        exact seenAs_bind fun rest => rfl
    | wildcard | text | siblings => rfl
    | ellipsis => cases inList <;> rfl
    | regex src =>
      change check grammar sure possible inList id (.regex src) = _
      rw [check]
      cases Regex.readString src with
      | ok compiled => rfl
      | error stop => cases stop <;> rfl
    | metavar name =>
      change check grammar sure possible inList id (.metavar name) = _
      rw [check]
      split
      · rfl
      · split <;> rfl
    | capture name inner =>
      -- a captured ellipsis is the one shape that is not checked by itself
      by_cases he : inner = .ellipsis
      · subst he
        change check grammar sure possible inList id (.capture name .ellipsis) = _
        rw [check]
        split
        · rfl
        · cases inList <;> rfl
      · rw [Shape.bare, check_capture he, check_capture (mt Shape.bare_eq_ellipsis_iff.1 he)]
        split
        · rfl
        · rw [ih inner mem_cons_self]
          refine seenAs_bind fun checked => ?_
          rw [checked.alike_bare.mayBind_eq]
          split <;> rfl
    | oneOf options =>
      have ho := @checkOptions_bare _ options ih
      rw [Shape.bare, check, check, ho]
      exact seenAs_bind fun rest => rfl
    | negation inner | deep inner =>
      rw [Shape.bare, check, check, ih inner mem_cons_self]
      exact seenAs_bind fun rest => rfl
    | guarded inner pred =>
      rw [Shape.bare, check, check, inner.isEllipsis_bare]
      split
      · rfl
      · rw [ih inner mem_cons_self]
        refine seenAs_bind fun checked => ?_
        rw [checked.alike_bare.surelyBinds_eq, checkGuard_bare]
        exact seenAs_bind fun rest => rfl

private theorem checkSiblings_bare (grammar : Grammar) (items : List Shape) (guard : Option Predicate) :
    checkSiblings grammar (Shape.bareAll items) (guard.map Predicate.bare) =
      seenAs Instr.bare Defect.bare (checkSiblings grammar items guard) := by
  cases items with
  | nil => rfl
  | cons first rest =>
    have hi := @checkItems_bare grammar (first :: rest) (fun item _ => unaffected grammar item) [] [] 1
    rw [Shape.bareAll] at hi ⊢
    unfold checkSiblings
    dsimp only
    rw [first.isEllipsis_bare, hi]
    split
    · rfl
    · refine seenAs_bind fun instrs => ?_
      cases guard with
      | none => rfl
      | some pred =>
        dsimp only [Option.map_some]
        rw [(Instr.alikeAll_bare instrs).surelyBind_eq, checkGuard_bare]
        exact seenAs_bind fun _ => rfl

/-- What a whole shape is checked to does not depend on the texts of guards. -/
theorem checkTop_bare (grammar : Grammar) (shape : Shape) :
    checkTop grammar shape.bare = seenAs Instr.bare Defect.bare (checkTop grammar shape) := by
  have hs := unaffected grammar shape [] [] false 0
  cases shape with
  | siblings items => exact checkSiblings_bare grammar items none
  | guarded inner pred =>
    cases inner with
    | siblings items => exact checkSiblings_bare grammar items (some pred)
    | _ => exact hs
  | ellipsis => rfl
  | _ => exact hs

end Pattern

end TreeLint
