import Mathlib.Data.List.Nodup
import TreeLint.Pattern.Compile
import TreeLint.Proofs.PlainMatch
import TreeLint.Proofs.Stop

/-!
# Numbers and names in checked patterns

A pattern is checked with two lists of names: those that are certainly bound before an instruction is matched, and those
that may be.

* `Pattern.Instr.parts`: an instruction with all those inside it;
* `Pattern.Instr.Scoped`: what the check ensures of an instruction under the two lists;
* `Pattern.Formed`: the instructions of a pattern have numbers of their own, and what an item of a list may bind is not
  bound again by the items after it;
* `Pattern.formed_of_compileGiven`, `Pattern.scopedRoot_of_compileGiven`: both hold of every pattern that compiles.
-/

namespace TreeLint

open List

namespace Pattern

namespace Instr

mutual

/-- An instruction and those inside it, in preorder. -/
def parts : Instr → List Instr
  | node id name kindId items => node id name kindId items :: partsOfAll items
  | oneOf id options => oneOf id options :: partsOfAll options
  | siblings id items guard => siblings id items guard :: partsOfAll items
  | capture id name inner => capture id name inner :: parts inner
  | negation id inner => negation id inner :: parts inner
  | deep id inner => deep id inner :: parts inner
  | guarded id inner predicate => guarded id inner predicate :: parts inner
  | instr => [instr]

/-- The instructions of a list and those inside them, in preorder. -/
def partsOfAll : List Instr → List Instr
  | [] => []
  | item :: items => parts item ++ partsOfAll items

end

theorem parts_eq (instr : Instr) : instr.parts = instr :: partsOfAll instr.children := by
  cases instr <;> simp [parts, partsOfAll, children, children?]

theorem self_mem_parts (instr : Instr) : instr ∈ instr.parts := by
  rw [parts_eq]
  exact mem_cons_self

private theorem mem_partsOfAll {part : Instr} {items : List Instr} :
    part ∈ partsOfAll items ↔ ∃ item ∈ items, part ∈ item.parts := by
  rw [@ofAll_eq_flatMap _ parts partsOfAll rfl fun _ _ => rfl, mem_flatMap]

theorem parts_child_subset {instr child : Instr} (h : child ∈ instr.children) : child.parts ⊆ instr.parts := by
  rw [parts_eq instr]
  exact fun part hp => mem_cons_of_mem _ (mem_partsOfAll.2 ⟨child, h, hp⟩)

/-- The parts of a part are parts. -/
theorem parts_subset_of_mem {instr part : Instr} (h : part ∈ instr.parts) : part.parts ⊆ instr.parts := by
  induction instr using Instr.induction with
  | step instr ih =>
    rw [parts_eq] at h
    rcases mem_cons.1 h with rfl | h
    · exact List.Subset.refl _
    · obtain ⟨child, hc, hp⟩ := mem_partsOfAll.1 h
      exact fun inner hi => parts_child_subset hc (ih child hc hp hi)

mutual

/-- All names that are bound inside an instruction, also where the bindings are forgotten. -/
def binders : Instr → List String
  | metavar _ name => [name]
  | node _ _ _ items | oneOf _ items | siblings _ items _ => bindersOfAll items
  | capture _ name inner => name :: inner.binders
  | negation _ inner | deep _ inner | guarded _ inner _ => inner.binders
  | kind _ _ _ | wildcard _ | ellipsis _ | backref _ _ | text _ _ | regex _ _ _ => []

/-- All names that are bound inside the instructions of a list. -/
def bindersOfAll : List Instr → List String
  | [] => []
  | item :: items => item.binders ++ bindersOfAll items

end

private theorem mem_bindersOfAll {name : String} {items : List Instr} :
    name ∈ bindersOfAll items ↔ ∃ item ∈ items, name ∈ item.binders := by
  rw [@ofAll_eq_flatMap _ binders bindersOfAll rfl fun _ _ => rfl, mem_flatMap]

private theorem mayBindOfAll_subset_of {items : List Instr} (h : ∀ item ∈ items, item.mayBind ⊆ item.binders) :
    mayBindOfAll items ⊆ bindersOfAll items := by
  intro name hn
  obtain ⟨item, hi, hn⟩ := mem_mayBindOfAll.1 hn
  exact mem_bindersOfAll.2 ⟨item, hi, h item hi hn⟩

theorem mayBind_subset (instr : Instr) : instr.mayBind ⊆ instr.binders := by
  induction instr using Instr.induction with
  | step instr ih =>
    cases instr with
    | node | oneOf | siblings => exact mayBindOfAll_subset_of ih
    | capture id name inner =>
      intro other ho
      rcases mem_append.1 ho with ho | ho
      · exact mem_cons_of_mem _ (ih inner mem_cons_self ho)
      · exact mem_singleton.1 ho ▸ mem_cons_self
    | deep id inner | guarded id inner => exact ih inner mem_cons_self
    | metavar => exact List.Subset.refl _
    | _ => exact nil_subset _

theorem mayBindOfAll_subset (items : List Instr) : mayBindOfAll items ⊆ bindersOfAll items :=
  mayBindOfAll_subset_of fun item _ => item.mayBind_subset

/-- The list of an instruction that is matched with siblings, and whether all siblings are to be taken. -/
def list? : Instr → Option (Bool × List Instr)
  | node _ _ _ items => some (true, items)
  | siblings _ items _ => some (false, items)
  | _ => none

/-- What an item may bind is not bound by the items after it. -/
def Separate : List Instr → Prop
  | [] => True
  | item :: rest => (∀ name ∈ item.mayBind, name ∉ bindersOfAll rest) ∧ Separate rest

theorem size_eq (instr : Instr) : instr.size = sizeOfAll instr.children + 1 := by
  cases instr <;> simp [size, sizeOfAll, children, children?]

/-! ## Scopes -/

mutual

/-- An instruction may be matched at a node where the names in `sure` are bound and only those in `possible` can be:
references are to bound names, guards read bound names, and only new names are bound. -/
def Scoped (sure possible : List String) : Instr → Prop
  | kind _ _ _ | wildcard _ | text _ _ | regex _ _ _ => True
  | ellipsis _ | siblings _ _ _ => False
  | metavar _ name => name ∉ possible
  | backref _ name => name ∈ sure
  | node _ _ _ items => ScopedList sure possible items
  | capture _ name inner => name ∉ possible ∧ name ∉ inner.mayBind ∧ inner.Scoped sure possible
  | oneOf _ options => ScopedEach sure possible options
  | negation _ inner | deep _ inner => inner.Scoped sure possible
  | guarded _ inner predicate =>
    inner.Scoped sure possible ∧ ∀ name ∈ predicate.references, name ∈ sure ∨ name ∈ inner.surelyBinds

/-- The items of a list may be matched one after the other; an ellipsis among them binds a new name, if any. -/
def ScopedList (sure possible : List String) : List Instr → Prop
  | [] => True
  | item :: items =>
    (if item.isEllipsis then ∀ name ∈ item.mayBind, name ∉ possible else item.Scoped sure possible) ∧
      ScopedList (sure ++ item.surelyBinds) (possible ++ item.mayBind) items

/-- Every one of several options may be matched. -/
def ScopedEach (sure possible : List String) : List Instr → Prop
  | [] => True
  | option :: options => option.Scoped sure possible ∧ ScopedEach sure possible options

end

/-- A whole pattern may be matched where nothing is bound. -/
def ScopedRoot : Instr → Prop
  | siblings _ items guard =>
    ScopedList [] [] items ∧ ∀ predicate, guard = some predicate →
      ∀ name ∈ predicate.references, name ∈ surelyBindOfAll items
  | root => root.Scoped [] []

variable {sure possible : List String} {instr option : Instr} {items options : List Instr}

theorem ScopedEach.scoped (h : ScopedEach sure possible options) (ho : option ∈ options) :
    option.Scoped sure possible := by
  induction options with
  | nil => cases ho
  | cons first options ih =>
    rcases mem_cons.1 ho with rfl | ho
    · exact h.1
    · exact ih h.2 ho

theorem Scoped.not_isEllipsis (h : instr.Scoped sure possible) : instr.isEllipsis = false := by
  cases instr with
  | ellipsis => exact h.elim
  | capture id name inner =>
    cases inner with
    | ellipsis => exact h.2.2.elim
    | _ => rfl
  | _ => rfl

theorem reads_subset_readsOfAll (h : option ∈ options) : option.reads ⊆ readsOfAll options := by
  rw [@ofAll_eq_flatMap _ reads readsOfAll rfl fun _ _ => rfl]
  exact fun name hn => mem_flatMap.2 ⟨option, h, hn⟩

private theorem binders_eq_mayBind (h : instr.isEllipsis) : instr.binders = instr.mayBind := by
  cases instr with
  | ellipsis => rfl
  | capture id name inner =>
    cases inner with
    | ellipsis => rfl
    | _ => cases h
  | _ => cases h

private theorem ScopedList.fresh_of (hi : ∀ item ∈ items, ∀ sure possible, item.Scoped sure possible →
      ∀ name ∈ item.binders, name ∉ possible) (h : ScopedList sure possible items) :
    ∀ name ∈ bindersOfAll items, name ∉ possible := by
  induction items generalizing sure possible with
  | nil => exact forall_mem_nil _
  | cons item items ih =>
    obtain ⟨hit, hr⟩ := h
    intro name hn
    rcases mem_append.1 hn with hn | hn
    · split at hit
      next he => exact hit name (binders_eq_mayBind he ▸ hn)
      · exact hi item mem_cons_self _ _ hit name hn
    · have hnw := ih (forall_mem_cons.1 hi).2 hr name hn
      exact fun hm => hnw (mem_append_left _ hm)

/-- All names that are bound inside an instruction are new. -/
theorem Scoped.fresh (h : instr.Scoped sure possible) : ∀ name ∈ instr.binders, name ∉ possible := by
  induction instr using Instr.induction generalizing sure possible with
  | step instr ih =>
    cases instr with
    | node id name kindId items => exact ScopedList.fresh_of (fun item hi _ _ hs => ih item hi hs) h
    | oneOf id options =>
      intro name hn
      obtain ⟨option, ho, hn⟩ := mem_bindersOfAll.1 hn
      exact ih option ho (h.scoped ho) name hn
    | capture id name inner =>
      intro other hot
      rcases mem_cons.1 hot with rfl | hot
      · exact h.1
      · exact ih inner mem_cons_self h.2.2 other hot
    | negation id inner | deep id inner => exact ih inner mem_cons_self h
    | guarded id inner pred => exact ih inner mem_cons_self h.1
    | metavar id name =>
      intro other hot
      rw [mem_singleton.1 hot]
      exact h
    | siblings => exact h.elim
    | _ => exact forall_mem_nil _

theorem ScopedList.fresh (h : ScopedList sure possible items) : ∀ name ∈ bindersOfAll items, name ∉ possible :=
  ScopedList.fresh_of (fun _ _ _ _ hs => hs.fresh) h

/-- No two items of a scoped list bind one name. -/
theorem ScopedList.separate (h : ScopedList sure possible items) : Separate items := by
  induction items generalizing sure possible with
  | nil => trivial
  | cons item items ih =>
    exact ⟨fun name hn hm => h.2.fresh name hm (mem_append_right _ hn), ih h.2⟩

end Instr

/-! ## Checking shapes -/

open Instr (partsOfAll sizeOfAll Separate Scoped ScopedList ScopedEach ScopedRoot)

variable {g : Grammar} {sure possible : List String} {inList : Bool} {id : Nat} {instr root : Instr}
  {instrs : List Instr} {pattern : Pattern} {shape : Shape} {source : String} {given : Given}

private theorem checkGuard_eq_ok {available : List String} {pred : Predicate}
    (h : checkGuard available pred = .ok ()) : ∀ name ∈ pred.references, name ∈ available := by
  unfold checkGuard at h
  dsimp only at h
  split at h
  next he =>
    intro name hn
    have hnn := filter_eq_nil_iff.1 (List.isEmpty_iff.1 he) name hn
    simpa using hnn
  · cases h

/-- What one step of the check makes of a shape, case by case. -/
inductive Step (grammar : Grammar) (sure possible : List String) (inList : Bool) (id : Nat) : Shape → Instr → Prop
  | kind {name : String} {kindId : Nat} (hkind : grammar.kindId? name = some kindId) :
    Step grammar sure possible inList id (.kind name) (.kind id name kindId)
  | node {name : String} {kindId : Nat} {items : List Shape} {instrs : List Instr}
    (hkind : grammar.kindId? name = some kindId) (hitems : checkItems grammar sure possible (id + 1) items = .ok instrs) :
    Step grammar sure possible inList id (.node name items) (.node id name kindId instrs)
  | wildcard : Step grammar sure possible inList id .wildcard (.wildcard id)
  | text (value : String) : Step grammar sure possible inList id (.text value) (.text id value)
  | ellipsis (hlist : inList = true) : Step grammar sure possible inList id .ellipsis (.ellipsis id)
  | regex {source : String} {compiled : Regex} (hread : Regex.readString source = .ok compiled) :
    Step grammar sure possible inList id (.regex source) (.regex id source compiled)
  | backref {name : String} (hname : name ∈ sure) :
    Step grammar sure possible inList id (.metavar name) (.backref id name)
  | metavar {name : String} (hunsure : name ∉ sure) (hnew : name ∉ possible) :
    Step grammar sure possible inList id (.metavar name) (.metavar id name)
  | run {name : String} (hnew : name ∉ possible) (hlist : inList = true) :
    Step grammar sure possible inList id (.capture name .ellipsis) (.capture id name (.ellipsis (id + 1)))
  | capture {name : String} {inner : Shape} {checked : Instr} (hnew : name ∉ possible)
    (hinner : check grammar sure possible false (id + 1) inner = .ok checked) (honce : name ∉ checked.mayBind) :
    Step grammar sure possible inList id (.capture name inner) (.capture id name checked)
  | oneOf {options : List Shape} {instrs : List Instr}
    (hoptions : checkOptions grammar sure possible (id + 1) options = .ok instrs) :
    Step grammar sure possible inList id (.oneOf options) (.oneOf id instrs)
  | negation {inner : Shape} {checked : Instr} (hinner : check grammar sure possible false (id + 1) inner = .ok checked) :
    Step grammar sure possible inList id (.negation inner) (.negation id checked)
  | deep {inner : Shape} {checked : Instr} (hinner : check grammar sure possible false (id + 1) inner = .ok checked) :
    Step grammar sure possible inList id (.deep inner) (.deep id checked)
  | guarded {inner : Shape} {checked : Instr} {predicate : Predicate}
    (hinner : check grammar sure possible false (id + 1) inner = .ok checked)
    (hguard : ∀ name ∈ predicate.references, name ∈ sure ++ checked.surelyBinds) :
    Step grammar sure possible inList id (.guarded inner predicate) (.guarded id checked predicate)

/-- A check that passes has made one step, with checks of what is inside. -/
theorem step_of_check (h : check g sure possible inList id shape = .ok instr) :
    Step g sure possible inList id shape instr := by
  cases shape with
  | kind name =>
    unfold check at h
    split at h
    next hk => cases h; exact .kind hk
    · cases h
  | node name items =>
    unfold check at h
    split at h
    next hk =>
      simp only [bind_eq_ok_iff, pure_eq_ok_iff] at h
      obtain ⟨instrs, hi, rfl⟩ := h
      exact .node hk hi
    · cases h
  | wildcard => cases h; exact .wildcard
  | text value => cases h; exact .text value
  | ellipsis =>
    unfold check at h
    split at h
    next hl => cases h; exact .ellipsis hl
    · cases h
  | regex source =>
    unfold check at h
    split at h
    next hr => cases h; exact .regex hr
    · cases h
  | siblings => cases h
  | metavar name =>
    unfold check at h
    split at h
    next hs => cases h; exact .backref (contains_iff_mem.1 hs)
    next hu =>
      split at h
      · cases h
      next hnw => cases h; exact .metavar (mt contains_iff_mem.2 hu) (mt contains_iff_mem.2 hnw)
  | capture name inner =>
    unfold check at h
    split at h
    · cases h
    next hnw =>
      have hn : name ∉ possible := mt contains_iff_mem.2 hnw
      split at h
      · split at h
        next hl => cases h; exact .run hn hl
        · cases h
      · simp only [bind_eq_ok_iff] at h
        obtain ⟨checked, hc, h⟩ := h
        split at h
        · cases h
        next ho => cases h; exact .capture hn hc (mt contains_iff_mem.2 ho)
  | oneOf options =>
    simp only [check, bind_eq_ok_iff, pure_eq_ok_iff] at h
    obtain ⟨instrs, hi, rfl⟩ := h
    exact .oneOf hi
  | negation inner =>
    simp only [check, bind_eq_ok_iff, pure_eq_ok_iff] at h
    obtain ⟨checked, hc, rfl⟩ := h
    exact .negation hc
  | deep inner =>
    simp only [check, bind_eq_ok_iff, pure_eq_ok_iff] at h
    obtain ⟨checked, hc, rfl⟩ := h
    exact .deep hc
  | guarded inner pred =>
    unfold check at h
    split at h
    · cases h
    · simp only [bind_eq_ok_iff, pure_eq_ok_iff] at h
      obtain ⟨checked, hc, _, hg, rfl⟩ := h
      exact .guarded hc (checkGuard_eq_ok hg)

theorem checkItems_cons {item : Shape} {items : List Shape}
    (h : checkItems g sure possible id (item :: items) = .ok instrs) :
    ∃ head rest, check g sure possible true id item = .ok head ∧
      checkItems g (sure ++ head.surelyBinds) (possible ++ head.mayBind) (id + head.size) items = .ok rest ∧
        instrs = head :: rest := by
  simp only [checkItems, bind_eq_ok_iff, pure_eq_ok_iff] at h
  obtain ⟨head, hh, rest, hr, rfl⟩ := h
  exact ⟨head, rest, hh, hr, rfl⟩

theorem checkOptions_cons {option : Shape} {options : List Shape}
    (h : checkOptions g sure possible id (option :: options) = .ok instrs) :
    ∃ head rest, check g sure possible false id option = .ok head ∧
      checkOptions g sure possible (id + head.size) options = .ok rest ∧ instrs = head :: rest := by
  unfold checkOptions at h
  split at h
  · cases h
  · simp only [bind_eq_ok_iff, pure_eq_ok_iff] at h
    obtain ⟨head, hh, rest, hr, rfl⟩ := h
    exact ⟨head, rest, hh, hr, rfl⟩

/-- Every list of an instruction or inside it has separate items. -/
def AllSeparate (parts : List Instr) : Prop :=
  ∀ part ∈ parts, ∀ anchored items, part.list? = some (anchored, items) → Separate items

/-- An instruction may be matched. Only in a list it may be an ellipsis, which binds a new name, if any. -/
def Admissible (sure possible : List String) (inList : Bool) (instr : Instr) : Prop :=
  if instr.isEllipsis then inList = true ∧ ∀ name ∈ instr.mayBind, name ∉ possible else instr.Scoped sure possible

/-- What a check makes of a shape, numbered from `id` on. -/
structure Checked (sure possible : List String) (inList : Bool) (id : Nat) (instr : Instr) : Prop where
  numbers : instr.parts.map Instr.id = List.range' id instr.size
  separate : AllSeparate instr.parts
  admissible : Admissible sure possible inList instr

/-- What a check makes of several shapes. -/
structure CheckedAll (id : Nat) (instrs : List Instr) : Prop where
  numbers : (partsOfAll instrs).map Instr.id = List.range' id (sizeOfAll instrs)
  separate : AllSeparate (partsOfAll instrs)

theorem Checked.scoped (h : Checked sure possible false id instr) : instr.Scoped sure possible := by
  have ha := h.admissible
  unfold Admissible at ha
  split at ha
  · cases ha.1
  · exact ha

private theorem admissible_of_scoped (h : instr.Scoped sure possible) : Admissible sure possible inList instr := by
  rw [Admissible, if_neg (by simp [h.not_isEllipsis])]
  exact h

private theorem checkedAll_nil (id : Nat) : CheckedAll id [] :=
  ⟨rfl, forall_mem_nil _⟩

theorem CheckedAll.cons {first : Instr} {rest : List Instr} (hf : Checked sure possible inList id first)
    (hr : CheckedAll (id + first.size) rest) : CheckedAll id (first :: rest) where
  numbers := by rw [partsOfAll, map_append, hf.numbers, hr.numbers, sizeOfAll, range'_append_1]
  separate := forall_mem_append.2 ⟨hf.separate, hr.separate⟩

private theorem map_id_parts (hid : instr.id = id) (hc : CheckedAll (id + 1) instr.children) :
    instr.parts.map Instr.id = List.range' id instr.size := by
  rw [instr.parts_eq, map_cons, hid, hc.numbers, instr.size_eq, range'_succ]

private theorem allSeparate_parts (hc : AllSeparate (partsOfAll instr.children))
    (ho : ∀ anchored items, instr.list? = some (anchored, items) → Separate items) : AllSeparate instr.parts := by
  rw [instr.parts_eq]
  exact forall_mem_cons.2 ⟨ho, hc⟩

private theorem checked_of_children (hid : instr.id = id) (hc : CheckedAll (id + 1) instr.children)
    (ha : Admissible sure possible inList instr) : Checked sure possible inList id instr := by
  refine ⟨map_id_parts hid hc, allSeparate_parts hc.separate fun anchored items hl => ?_, ha⟩
  cases instr with
  | node => cases hl; exact ScopedList.separate ha
  | siblings => exact ha.elim
  | _ => cases hl

def Shape.children : Shape → List Shape
  | .node _ items | .oneOf items | .siblings items => items
  | .capture _ inner | .negation inner | .deep inner | .guarded inner _ => [inner]
  | _ => []

/-- What holds of a shape if it holds of those directly inside it holds of all. -/
theorem Shape.induction {motive : Shape → Prop}
    (step : ∀ shape : Shape, (∀ child ∈ shape.children, motive child) → motive shape) (shape : Shape) :
    motive shape := by
  have ho : ∀ {inner}, motive inner → ∀ child ∈ [inner], motive child := by
    intro inner hi child hc
    rwa [mem_singleton.1 hc]
  have hn : ∀ child ∈ ([] : List Shape), motive child := forall_mem_nil _
  exact @Shape.rec motive (fun shapes => ∀ shape ∈ shapes, motive shape)
    (fun _ => step _ hn) (fun _ _ ih => step _ ih) (step _ hn) (step _ hn) (fun _ _ ih => step _ (ho ih))
    (fun _ => step _ hn) (fun _ => step _ hn) (fun _ => step _ hn) (fun _ ih => step _ ih)
    (fun _ ih => step _ (ho ih)) (fun _ ih => step _ (ho ih)) (fun _ _ ih => step _ (ho ih))
    (fun _ ih => step _ ih) hn (fun _ _ hf hr _ hm => (mem_cons.1 hm).elim (fun heq => heq ▸ hf) (hr _)) shape

/-- Whatever a shape is checked to is numbered, and it may be matched under the names that it was checked with. -/
def Checks (grammar : Grammar) (shape : Shape) : Prop :=
  ∀ (sure possible : List String) (inList : Bool) (id : Nat) (instr : Instr),
    check grammar sure possible inList id shape = .ok instr → Checked sure possible inList id instr

private theorem checkItems_checks {items : List Shape} (hi : ∀ item ∈ items, Checks g item)
    (h : checkItems g sure possible id items = .ok instrs) :
    CheckedAll id instrs ∧ ScopedList sure possible instrs := by
  induction items generalizing sure possible id instrs with
  | nil =>
    cases h
    exact ⟨checkedAll_nil id, trivial⟩
  | cons item items ih =>
    obtain ⟨head, rest, hh, hr, rfl⟩ := checkItems_cons h
    have hc := hi item mem_cons_self _ _ _ _ _ hh
    obtain ⟨hall, hs⟩ := ih (forall_mem_cons.1 hi).2 hr
    refine ⟨.cons hc hall, ?_, hs⟩
    have ha := hc.admissible
    unfold Admissible at ha
    split at ha
    next he =>
      rw [if_pos he]
      exact ha.2
    next hf =>
      rw [if_neg hf]
      exact ha

private theorem checkOptions_checks {options : List Shape} (ho : ∀ option ∈ options, Checks g option)
    (h : checkOptions g sure possible id options = .ok instrs) :
    CheckedAll id instrs ∧ ScopedEach sure possible instrs := by
  induction options generalizing id instrs with
  | nil =>
    cases h
    exact ⟨checkedAll_nil id, trivial⟩
  | cons option options ih =>
    obtain ⟨head, rest, hh, hr, rfl⟩ := checkOptions_cons h
    have hc := ho option mem_cons_self _ _ _ _ _ hh
    obtain ⟨ha, hs⟩ := ih (forall_mem_cons.1 ho).2 hr
    exact ⟨.cons hc ha, hc.scoped, hs⟩

/-- Every shape that passes the check gives an instruction that is numbered and scoped. -/
theorem checks (g : Grammar) (shape : Shape) : Checks g shape := by
  induction shape using Shape.induction with
  | step shape ih =>
    intro sure possible inList id instr h
    have hone : ∀ {inner : Shape} {checked : Instr}, Checks g inner →
        check g sure possible false (id + 1) inner = .ok checked →
          CheckedAll (id + 1) [checked] ∧ checked.Scoped sure possible := fun hi hc =>
      ⟨.cons (hi _ _ _ _ _ hc) (checkedAll_nil _), (hi _ _ _ _ _ hc).scoped⟩
    have hl : ∀ {instr : Instr}, instr.id = id → instr.children = [] → Admissible sure possible inList instr →
        Checked sure possible inList id instr := fun hid hn ha =>
      checked_of_children hid (hn ▸ checkedAll_nil _) ha
    cases step_of_check h with
    | kind | wildcard | text | regex => exact hl rfl rfl trivial
    | ellipsis hls => exact hl rfl rfl ⟨hls, forall_mem_nil _⟩
    | backref hnm => exact hl rfl rfl hnm
    | metavar hu hnw => exact hl rfl rfl hnw
    | node hk hit =>
      obtain ⟨hall, hs⟩ := checkItems_checks ih hit
      exact checked_of_children rfl hall hs
    | @run name hnw hls =>
      have hi : Checked sure possible true (id + 1) (.ellipsis (id + 1)) :=
        checked_of_children rfl (checkedAll_nil _) ⟨rfl, forall_mem_nil _⟩
      refine checked_of_children rfl (.cons hi (checkedAll_nil _)) ⟨hls, fun other ho => ?_⟩
      rw [mem_singleton.1 ho]
      exact hnw
    | capture hnw hi hon =>
      obtain ⟨hall, hs⟩ := hone (ih _ mem_cons_self) hi
      have hs : (Instr.capture id _ _).Scoped sure possible := ⟨hnw, hon, hs⟩
      exact checked_of_children rfl hall (admissible_of_scoped hs)
    | oneOf hop =>
      obtain ⟨hall, hs⟩ := checkOptions_checks ih hop
      exact checked_of_children rfl hall hs
    | negation hi | deep hi =>
      obtain ⟨hall, hs⟩ := hone (ih _ mem_cons_self) hi
      exact checked_of_children rfl hall hs
    | guarded hi hg =>
      obtain ⟨hall, hs⟩ := hone (ih _ mem_cons_self) hi
      exact checked_of_children rfl hall ⟨hs, fun name hnm => mem_append.1 (hg name hnm)⟩

/-! ## Whole patterns -/

/-- The instructions of a pattern have numbers of their own, and its lists have separate items. -/
structure Formed (root : Instr) : Prop where
  numbers : (root.parts.map Instr.id).Nodup
  separate : AllSeparate root.parts

/-- A number belongs to one part only. -/
theorem Formed.eq_of_id_eq {first second : Instr} (h : Formed root) (hf : first ∈ root.parts)
    (hs : second ∈ root.parts) (hid : first.id = second.id) : first = second :=
  inj_on_of_nodup_map h.numbers hf hs hid

private theorem formed_of_numbers (hn : instr.parts.map Instr.id = List.range' id instr.size)
    (hs : AllSeparate instr.parts) : Formed instr :=
  ⟨hn ▸ nodup_range', hs⟩

private theorem checkedRoot_of_checkSiblings {items : List Shape} {guard : Option Predicate}
    (h : checkSiblings g items guard = .ok instr) : Formed instr ∧ ScopedRoot instr := by
  have hr : ∃ instrs, checkItems g [] [] 1 items = .ok instrs ∧ instr = .siblings 0 instrs guard ∧
      ∀ pred, guard = some pred → ∀ name ∈ pred.references, name ∈ Instr.surelyBindOfAll instrs := by
    unfold checkSiblings at h
    cases items with
    | nil => cases h
    | cons first rest =>
      dsimp only at h
      split at h
      · cases h
      · simp only [bind_eq_ok_iff] at h
        obtain ⟨instrs, hi, h⟩ := h
        cases guard with
        | none =>
          cases h
          exact ⟨instrs, hi, rfl, nofun⟩
        | some pred =>
          simp only [bind_eq_ok_iff, pure_eq_ok_iff] at h
          obtain ⟨_, hg, rfl⟩ := h
          refine ⟨instrs, hi, rfl, fun other ho => ?_⟩
          cases ho
          exact checkGuard_eq_ok hg
  obtain ⟨instrs, hi, rfl, hg⟩ := hr
  obtain ⟨ha, hs⟩ := checkItems_checks (fun item _ => checks g item) hi
  refine ⟨formed_of_numbers (map_id_parts rfl ha) (allSeparate_parts ha.separate ?_), hs, hg⟩
  rintro _ _ ⟨⟩
  exact hs.separate

private theorem checkedRoot_of_checkTop (h : checkTop g shape = .ok instr) : Formed instr ∧ ScopedRoot instr := by
  unfold checkTop at h
  split at h
  · exact checkedRoot_of_checkSiblings h
  · exact checkedRoot_of_checkSiblings h
  · cases h
  · have hc := checks g _ _ _ _ _ _ h
    refine ⟨formed_of_numbers hc.numbers hc.separate, ?_⟩
    cases instr with
    | siblings => exact hc.scoped.elim
    | _ => exact hc.scoped

theorem checkTop_of_compileShape (h : compileShape g source shape = .ok pattern) :
    checkTop g shape = .ok pattern.root := by
  unfold compileShape at h
  split at h
  next root hr =>
    cases h
    exact hr
  · cases h

theorem formed_of_compileShape (h : compileShape g source shape = .ok pattern) : Formed pattern.root :=
  (checkedRoot_of_checkTop (checkTop_of_compileShape h)).1

private theorem exists_compileShape (h : compileGiven g given = .ok pattern) :
    ∃ source shape, compileShape g source shape = .ok pattern := by
  cases given with
  | text source =>
    simp only [compileGiven, compile, bind_eq_ok_iff] at h
    obtain ⟨shape, -, h⟩ := h
    exact ⟨_, shape, h⟩
  | form form =>
    simp only [compileGiven, bind_eq_ok_iff] at h
    obtain ⟨source, -, shape, -, h⟩ := h
    exact ⟨source, shape, h⟩

/-- Every pattern that compiles is well formed, whatever it is given as. -/
theorem formed_of_compileGiven (h : compileGiven g given = .ok pattern) : Formed pattern.root := by
  obtain ⟨_, _, hs⟩ := exists_compileShape h
  exact formed_of_compileShape hs

/-- Every pattern that compiles may be matched where nothing is bound. -/
theorem scopedRoot_of_compileGiven (h : compileGiven g given = .ok pattern) : ScopedRoot pattern.root := by
  obtain ⟨_, _, hs⟩ := exists_compileShape h
  exact (checkedRoot_of_checkTop (checkTop_of_compileShape hs)).2

theorem Instr.ScopedRoot.scoped (h : ScopedRoot root) (hn : ∀ id items guard,
    root ≠ .siblings id items guard) : root.Scoped [] [] := by
  cases root with
  | siblings id items guard => exact absurd rfl (hn id items guard)
  | _ => exact h

theorem compileGiven_form {form : Sexp} (hw : form.isWritable) :
    compileGiven g (.form form) = shapeOf true form >>= compileShape g form.text := by
  rw [compileGiven, Sexp.dump, if_pos hw]
  rfl

theorem compileGiven_text (hs : readShape source = .ok shape) (hr : checkTop g shape = .ok root) :
    compileGiven g (.text source) = .ok { source, root, grammarName := g.name } := by
  have hc : compileShape g source shape = .ok { source, root, grammarName := g.name } := by
    rw [compileShape, hr]
  rw [compileGiven, compile, hs]
  exact hc

end Pattern

end TreeLint
