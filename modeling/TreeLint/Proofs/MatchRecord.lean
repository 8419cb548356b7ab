import TreeLint.Proofs.PatternScope

/-!
# What a record of matching says

* `Record.Valid`: everything in a record is what is found out without it;
* `Yields`: with a valid record a computation gives a fixed value and keeps the record valid, unless the evaluation of a
  guard breaks down;
* `yields_holds`, `yields_accepts`, `yields_settle`: the guards of a pattern yield what they say without a record;
* `yields_recallNode`, `yields_recallList`: what is recalled is what would be found.
-/

namespace TreeLint

open List

namespace Match

open Pattern (Instr Formed)

/-- The guard of an instruction of a pattern, with the number of that instruction. -/
def IsGuard (root : Instr) (id : Nat) (predicate : Predicate) : Prop :=
  ∃ part ∈ root.parts, part.id = id ∧ part.predicate? = some predicate

/-- Pending guards are guards of the pattern. -/
def Pending.IsOf (root : Instr) : Pending → Prop
  | .guard id predicate => IsGuard root id predicate
  | .bind _ _ => True

/-- All guards of a pending chain are guards of the pattern. -/
def AllOf (root : Instr) (pending : List Pending) : Prop :=
  ∀ entry ∈ pending, entry.IsOf root

/-- Where matching may come to: a node, or a number that the tree lists below a node. -/
def IsPlace (tree : Tree) (node : Nat) : Prop :=
  node < tree.size ∨ ∃ parent, node ∈ tree.significantChildren parent ∨ node ∈ tree.descendants parent

/-- An instruction of a pattern that binds a name to the node it is matched at. -/
def IsCapture (root : Instr) (name : String) : Prop :=
  ∃ id, .metavar id name ∈ root.parts ∨ ∃ inner, .capture id name inner ∈ root.parts

/-- The bindings that matching comes to, from some bindings and a pending chain on. A name is bound to a place where its
capture is tried, to a run of siblings, as the chain says, or as an item of a list has bound it. -/
inductive Reached (root : Instr) (tree : Tree) (start : Bindings) (chain : List Pending) : Bindings → Prop
  | start : Reached root tree start chain start
  | only {bindings : Bindings} (names : List String) (h : Reached root tree start chain bindings) :
      Reached root tree start chain (bindings.only names)
  | awaited {bindings : Bindings} {name : String} {node : Nat} (hc : .bind name node ∈ chain)
      (h : Reached root tree start chain bindings) : Reached root tree start chain (bindings.put name (.one node))
  | captured {bindings : Bindings} {name : String} {node : Nat} (hc : IsCapture root name) (hp : IsPlace tree node)
      (h : Reached root tree start chain bindings) : Reached root tree start chain (bindings.put name (.one node))
  | run {bindings : Bindings} {item : Instr} {name : String} {parent : Nat} {taken : List Nat} (hi : item ∈ root.parts)
      (hn : item.runName? = some name) (ht : taken <:+: tree.significantChildren parent)
      (h : Reached root tree start chain bindings) : Reached root tree start chain (bindings.put name (.run taken))
  | item {bindings bound : Bindings} {item : Instr} {node : Nat} (hi : item ∈ root.parts) (hp : IsPlace tree node)
      (hb : Plain.matchNode tree item node bindings (fun _ => true) = some bound)
      (h : Reached root tree start chain bindings) : Reached root tree start chain (bindings.add bound)

/-- What the evaluation of some guard of a pattern breaks down with, for bindings that matching comes to. -/
def Breaks (root : Instr) (tree : Tree) (breakdown : Breakdown) (start : Bindings := []) (chain : List Pending := []) :
    Prop :=
  ∃ id predicate bindings, IsGuard root id predicate ∧ Reached root tree start chain bindings ∧
    predicate.evaluate tree bindings = .error (.breakdown breakdown)

/-- What a pending chain binds is what matching binds. -/
def Awaited (root : Instr) (tree : Tree) (chain pending : List Pending) : Prop :=
  ∀ name node, .bind name node ∈ pending → .bind name node ∈ chain ∨ IsCapture root name ∧ IsPlace tree node

variable {root : Instr} {tree : Tree} {start bindings : Bindings} {chain pending left : List Pending} {key : NodeKey}
  {siblings : List Nat} {items : List Instr}

/-- Without guards nothing breaks down. -/
theorem not_breaks_of_predicate? (h : ∀ part ∈ root.parts, part.predicate? = none) (breakdown : Breakdown) :
    ¬ Breaks root tree breakdown start chain := by
  rintro ⟨id, pred, _, ⟨part, hp, -, hpr⟩, -, -⟩
  cases (h part hp).symm.trans hpr

theorem isPlace_of_suffix {parent node : Nat} (hs : siblings <:+ tree.significantChildren parent)
    (hn : node ∈ siblings) : IsPlace tree node :=
  .inr ⟨parent, .inl (hs.subset hn)⟩

/-- A deep pattern looks at places only. -/
theorem isPlace_of_mem_targets {node target : Nat} (hp : IsPlace tree node)
    (ht : target ∈ (node :: tree.descendants node).filter fun target => !(tree.node target).trivia) :
    IsPlace tree target := by
  rcases mem_cons.1 (mem_filter.1 ht).1 with rfl | ht
  · exact hp
  · exact .inr ⟨node, .inr ht⟩

/-- Forgetting what is not read leads to bindings that are reached as well. -/
theorem Reached.relevant (h : Reached root tree start chain bindings) (reads : Unit → List String)
    (pending : List Pending) : Reached root tree start chain (relevant bindings reads pending) := by
  unfold Match.relevant
  split
  next he =>
    rw [isEmpty_iff.1 he] at h
    exact h
  · exact .only _ h

theorem Reached.runBindings {item : Instr} {parent : Nat} {taken : List Nat}
    (h : Reached root tree start chain bindings) (hi : item ∈ root.parts)
    (ht : taken <:+: tree.significantChildren parent) :
    Reached root tree start chain (bindings.add (runBindings item taken)) := by
  unfold Match.runBindings
  split
  next name hn => exact .run hi hn ht h
  · exact h

theorem awaited_nil : Awaited root tree chain [] :=
  fun _ _ h => absurd h not_mem_nil

theorem awaited_self : Awaited root tree pending pending :=
  fun _ _ => .inl

theorem Awaited.put {name : String} {node : Nat} {rest : List Pending}
    (h : Awaited root tree chain (.bind name node :: rest)) (hr : Reached root tree start chain bindings) :
    Reached root tree start chain (bindings.put name (.one node)) :=
  (h name node mem_cons_self).elim (.awaited · hr) fun hc => .captured hc.1 hc.2 hr

theorem Awaited.cons {name : String} {node : Nat} (h : Awaited root tree chain pending) (hc : IsCapture root name)
    (hp : IsPlace tree node) : Awaited root tree chain (.bind name node :: pending) := by
  intro other place hm
  rcases mem_cons.1 hm with heq | hm
  · cases heq
    exact .inr ⟨hc, hp⟩
  · exact h other place hm

theorem Awaited.guard {id : Nat} {pred : Predicate} (h : Awaited root tree chain pending) :
    Awaited root tree chain (.guard id pred :: pending) :=
  fun name node hm => h name node ((mem_cons.1 hm).resolve_left Pending.noConfusion)

theorem Awaited.mono (h : Awaited root tree chain pending) (hs : left ⊆ pending) : Awaited root tree chain left :=
  fun name node hm => h name node (hs hm)

theorem allOf_nil : AllOf root [] :=
  (forall_mem_nil _)

theorem allOf_cons {first : Pending} {rest : List Pending} :
    AllOf root (first :: rest) ↔ first.IsOf root ∧ AllOf root rest :=
  forall_mem_cons

/-- Nothing is pending after settling that was not before. -/
theorem subset_of_leftOver (hl : leftOver tree pending bindings = some left) : left ⊆ pending := by
  induction pending generalizing bindings left with
  | nil =>
    cases hl
    exact nil_subset _
  | cons first rest ih =>
    cases first with
    | guard id pred =>
      unfold leftOver at hl
      split at hl
      · split at hl
        · exact List.Subset.trans (ih hl) (subset_cons_self _ _)
        · cases hl
      · obtain ⟨later, hla, rfl⟩ := Option.map_eq_some_iff.1 hl
        exact cons_subset_cons _ (ih hla)
    | bind name node =>
      obtain ⟨later, hla, rfl⟩ := Option.map_eq_some_iff.1 hl
      split
      · exact nil_subset _
      · exact cons_subset_cons _ (ih hla)

theorem AllOf.mono (h : AllOf root pending) (hs : left ⊆ pending) : AllOf root left :=
  fun entry he => h entry (hs he)

/-! ## Keys -/

theorem IsGuard.unique {id : Nat} {first second : Predicate} (hf : Formed root) (hfr : IsGuard root id first)
    (hs : IsGuard root id second) : first = second := by
  obtain ⟨part, hp, hid, hfr⟩ := hfr
  obtain ⟨other, ho, hid', hs⟩ := hs
  obtain rfl := hf.eq_of_id_eq hp ho (hid.trans hid'.symm)
  exact Option.some.inj (hfr.symm.trans hs)

private theorem Pending.eq_of_key_eq {first second : Pending} (hf : Formed root) (hfr : first.IsOf root)
    (hs : second.IsOf root) (hk : first.key = second.key) : first = second := by
  cases first with
  | guard id pred =>
    cases second with
    | guard other predicate' =>
      obtain rfl := PendingKey.guard.inj hk
      rw [hfr.unique hf hs]
    | bind => cases hk
  | bind name node =>
    cases second with
    | guard => cases hk
    | bind =>
      obtain ⟨rfl, rfl⟩ := PendingKey.bind.inj hk
      rfl

/-- Pending chains of one pattern are told apart by their keys. -/
private theorem AllOf.eq_of_keys_eq {first second : List Pending} (hf : Formed root) (hfr : AllOf root first)
    (hs : AllOf root second) (hk : first.map Pending.key = second.map Pending.key) : first = second := by
  induction first generalizing second with
  | nil => exact (map_eq_nil_iff.1 hk.symm).symm
  | cons entry first ih =>
    cases second with
    | nil => cases hk
    | cons other second =>
      obtain ⟨he, hfr⟩ := allOf_cons.1 hfr
      obtain ⟨ho, hs⟩ := allOf_cons.1 hs
      obtain ⟨hky, hk⟩ := List.cons.inj hk
      rw [Pending.eq_of_key_eq hf he ho hky, ih hfr hs hk]

/-- The instruction and the pending chain that a key stands for. -/
structure NodeKey.Describes (root : Instr) (key : NodeKey) (instr : Instr) (pending : List Pending) : Prop where
  mem : instr ∈ root.parts
  id : instr.id = key.id
  pending_of : AllOf root pending
  pending_key : pending.map Pending.key = key.pending

/-- A key is that of one instruction and one pending chain, so entries are not mixed up. -/
theorem NodeKey.Describes.unique {first second : Instr} {others : List Pending} (hf : Formed root)
    (hfr : key.Describes root first pending) (hs : key.Describes root second others) :
    first = second ∧ pending = others :=
  ⟨hf.eq_of_id_eq hfr.mem hs.mem (hfr.id.trans hs.id.symm),
    hfr.pending_of.eq_of_keys_eq hf hs.pending_of (hfr.pending_key.trans hs.pending_key.symm)⟩

/-- The end of a list of items, the end of a list of siblings and the pending chain that a key stands for. -/
structure ListKey.Describes (root : Instr) (tree : Tree) (key : ListKey) (anchored : Bool) (items : List Instr)
    (siblings : List Nat) (pending : List Pending) : Prop where
  owner : ∃ owner ∈ root.parts, owner.id = key.owner ∧ ∃ all, owner.list? = some (anchored, all) ∧ items <:+ all
  items_length : items.length = key.items
  siblings_suffix : siblings <:+ tree.significantChildren key.parent
  siblings_length : siblings.length = key.siblings
  pending_of : AllOf root pending
  pending_key : pending.map Pending.key = key.pending

private theorem eq_of_suffix {α : Type} {first second all : List α} (hfr : first <:+ all) (hs : second <:+ all)
    (hl : first.length = second.length) : first = second := by
  rw [suffix_iff_eq_drop.1 hfr, suffix_iff_eq_drop.1 hs, hl]

theorem ListKey.Describes.unique {key : ListKey} {open₁ open₂ : Bool} {items' : List Instr} {siblings' : List Nat}
    {pending' : List Pending} (hf : Formed root) (hfr : key.Describes root tree open₁ items siblings pending)
    (hs : key.Describes root tree open₂ items' siblings' pending') :
    open₁ = open₂ ∧ items = items' ∧ siblings = siblings' ∧ pending = pending' := by
  obtain ⟨owner, ho, hid, all, ha, hsf⟩ := hfr.owner
  obtain ⟨other, hot, hid', all', ha', hs'⟩ := hs.owner
  obtain rfl := hf.eq_of_id_eq ho hot (hid.trans hid'.symm)
  obtain ⟨rfl, rfl⟩ := Prod.mk.inj (Option.some.inj (ha.symm.trans ha'))
  exact ⟨rfl, eq_of_suffix hsf hs' (hfr.items_length.trans hs.items_length.symm),
    eq_of_suffix hfr.siblings_suffix hs.siblings_suffix (hfr.siblings_length.trans hs.siblings_length.symm),
    hfr.pending_of.eq_of_keys_eq hf hs.pending_of (hfr.pending_key.trans hs.pending_key.symm)⟩

/-! ## Valid records -/

/-- What a record says about a pattern and a tree is what is found out without it. -/
structure Record.Valid (root : Instr) (tree : Tree) (record : Record) : Prop where
  verdicts : ∀ (key : GuardKey) verdict, record.verdicts[key]? = some verdict →
    ∀ (predicate : Predicate) (bindings : Bindings), IsGuard root key.id predicate →
      predicate.references.map bindings.get? = key.captures → predicate.isTrue tree bindings = verdict
  nodes : ∀ (key : NodeKey) outcome, record.nodes[key]? = some outcome →
    ∀ instr pending, key.Describes root instr pending →
      Plain.matchNode tree instr key.node key.bindings (isAccepted tree pending) = outcome
  lists : ∀ (key : ListKey) outcome, record.lists[key]? = some outcome →
    ∀ anchored items siblings pending, key.Describes root tree anchored items siblings pending →
      Plain.matchItems tree anchored items siblings key.bindings (isAccepted tree pending) = outcome

theorem Record.valid_empty : Record.Valid root tree {} where
  verdicts key verdict h := by simp at h
  nodes key outcome h := by simp at h
  lists key outcome h := by simp at h

private theorem forall_insert {α β : Type} [BEq α] [Hashable α] [LawfulBEq α] [LawfulHashable α]
    {map : Std.HashMap α β} {fits : α → β → Prop} (hm : ∀ key value, map[key]? = some value → fits key value)
    {new : α} {found : β} (hn : fits new found) :
    ∀ key value, (map.insert new found)[key]? = some value → fits key value := by
  intro key value h
  rw [Std.HashMap.getElem?_insert] at h
  split at h
  next heq =>
    cases h
    exact eq_of_beq heq ▸ hn
  · exact hm key value h

variable {record : Record}

/-- Noting what a guard says of the bindings in its key leaves the record valid. -/
theorem Record.Valid.insert_verdict (h : record.Valid root tree) (hf : Formed root) {id : Nat}
    {pred : Predicate} {bindings : Bindings} (hg : IsGuard root id pred)
    (mishaps : List Predicate.Mishap) :
    Record.Valid root tree
      { record with
        verdicts := record.verdicts.insert { id, captures := pred.references.map bindings.get? }
          (pred.isTrue tree bindings)
        mishaps } where
  verdicts := by
    refine forall_insert h.verdicts fun same others hs hc => ?_
    obtain rfl := hg.unique hf hs
    exact pred.isTrue_congr (map_inj_left.1 hc)
  nodes := h.nodes
  lists := h.lists

private theorem Record.Valid.insert_node (h : record.Valid root tree) (hf : Formed root) {instr : Instr}
    (hk : key.Describes root instr pending) :
    Record.Valid root tree
      { record with
        nodes := record.nodes.insert key
          (Plain.matchNode tree instr key.node key.bindings (isAccepted tree pending)) } where
  verdicts := h.verdicts
  nodes := by
    refine forall_insert h.nodes fun other others ho => ?_
    obtain ⟨rfl, rfl⟩ := hk.unique hf ho
    rfl
  lists := h.lists

private theorem Record.Valid.insert_list (h : record.Valid root tree) (hf : Formed root) {key : ListKey}
    {anchored : Bool}
    (hk : key.Describes root tree anchored items siblings pending) :
    Record.Valid root tree
      { record with
        lists := record.lists.insert key
          (Plain.matchItems tree anchored items siblings key.bindings (isAccepted tree pending)) } where
  verdicts := h.verdicts
  nodes := h.nodes
  lists := by
    refine forall_insert h.lists fun _ _ _ _ ho => ?_
    obtain ⟨rfl, rfl, rfl, rfl⟩ := hk.unique hf ho
    rfl

/-! ## Computations that keep a record -/

/-- Starting with a record, a computation gives a value, unless it breaks down as it may, and leaves a valid record. -/
def Gives (root : Instr) (tree : Tree) (may : Breakdown → Prop) {α : Type} (record : Record) (computation : Matching α)
    (value : α) : Prop :=
  ((computation.run).run record).2.Valid root tree ∧ (((computation.run).run record).1 = .ok value ∨
      ∃ breakdown, ((computation.run).run record).1 = .error breakdown ∧ may breakdown)

/-- A computation gives a value, whatever valid record it starts with. -/
def Yields (root : Instr) (tree : Tree) (may : Breakdown → Prop) {α : Type} (computation : Matching α) (value : α) :
    Prop :=
  ∀ record : Record, record.Valid root tree → Gives root tree may record computation value

variable {α β : Type} {value : α} {first : Matching α} {may : Breakdown → Prop}

private theorem gives_pure (hv : record.Valid root tree) (value : α) : Gives root tree may record (pure value) value :=
  ⟨hv, .inl rfl⟩

private theorem gives_throw (hv : record.Valid root tree) {breakdown : Breakdown} (hb : may breakdown)
    (value : α) : Gives root tree may record (throw breakdown) value :=
  ⟨hv, .inr ⟨breakdown, rfl, hb⟩⟩

private theorem gives_get {next : Record → Matching α} (h : Gives root tree may record (next record) value) :
    Gives root tree may record (get >>= next) value :=
  h

private theorem gives_modify {change : Record → Record} {next : Unit → Matching α}
    (h : Gives root tree may (change record) (next ()) value) :
    Gives root tree may record (modify change >>= next) value :=
  h

/-- A computation goes on with the record that the one before it leaves, unless that one breaks down. -/
theorem run_bind (first : Matching α) (next : α → Matching β) (record : Record) : ((first >>= next).run).run record =
      match (first.run).run record with
      | (.ok found, after) => ((next found).run).run after
      | (.error breakdown, after) => (.error breakdown, after) := by
  simp only [ExceptT.run_bind, StateT.run_bind]
  rcases (first.run).run record with ⟨_ | _, _⟩ <;> rfl

/-- Two steps give what they should if each does, whatever valid record lies between them. -/
theorem Gives.bind {next : α → Matching β} {result : β} (hfr : Gives root tree may record first value)
    (hn : ∀ after : Record, after.Valid root tree → Gives root tree may after (next value) result) :
    Gives root tree may record (first >>= next) result := by
  obtain ⟨ha, ho⟩ := hfr
  rw [Gives, run_bind]
  rcases hs : (first.run).run record with ⟨outcome, after⟩
  rw [hs] at ha ho
  -- a breakdown of the first computation is one of the whole
  rcases ho with rfl | ⟨breakdown, rfl, hb⟩
  · exact hn after ha
  · exact ⟨ha, .inr ⟨breakdown, rfl, hb⟩⟩

theorem yields_pure (value : α) : Yields root tree may (pure value) value :=
  fun _ hv => gives_pure hv value

theorem Yields.bind {next : α → Matching β} {result : β}
    (hfr : Yields root tree may first value) (hn : Yields root tree may (next value) result) :
    Yields root tree may (first >>= next) result :=
  fun record hv => (hfr record hv).bind hn

theorem Yields.map (f : α → β) (hfr : Yields root tree may first value) :
    Yields root tree may (do return f (← first)) (f value) :=
  hfr.bind (yields_pure _)

theorem yields_firstFound {attempt : α → Matching (Option β)} {found : α → Option β} {candidates : List α}
    (h : ∀ candidate ∈ candidates, Yields root tree may (attempt candidate) (found candidate)) :
    Yields root tree may (firstFound attempt candidates) (candidates.findSome? found) := by
  induction candidates with
  | nil => exact yields_pure _
  | cons candidate candidates ih =>
    rw [firstFound, findSome?_cons]
    refine (h candidate mem_cons_self).bind ?_
    cases found candidate with
    | some => exact yields_pure _
    | none => exact ih (forall_mem_cons.1 h).2

/-! ## Guards -/

section

variable (hf : Formed root)

include hf

/-- A guard is decided as without a record, whether or not its verdict was noted. -/
theorem yields_holds {id : Nat} {pred : Predicate} (hg : IsGuard root id pred)
    (hr : Reached root tree start chain bindings) :
    Yields root tree (Breaks root tree · start chain) (holds tree id pred bindings) (pred.isTrue tree bindings) := by
  intro record hv
  refine gives_get ?_
  split
  next verdict hk =>
    -- the verdict was on the same captures
    rw [hv.verdicts _ _ hk pred bindings hg rfl]
    exact gives_pure hv verdict
  next hu =>
    have hn := fun mishaps => @hv.insert_verdict _ _ _ hf _ _ bindings hg mishaps
    unfold Predicate.isTrue at hn ⊢
    split
    next verdict hvr =>
      rw [hvr] at hn ⊢
      exact gives_modify (gives_pure (hn record.mishaps) verdict)
    next mishap hm =>
      rw [hm] at hn ⊢
      exact gives_modify (gives_pure (hn (mishap :: record.mishaps)) false)
    next breakdown hb =>
      exact gives_throw hv ⟨id, pred, bindings, hg, hr, hb⟩ _

theorem yields_accepts (hp : AllOf root pending) (ha : Awaited root tree chain pending)
    (hr : Reached root tree start chain bindings) :
    Yields root tree (Breaks root tree · start chain) (accepts tree bindings pending)
      (isAccepted tree pending bindings) := by
  induction pending generalizing bindings with
  | nil => exact yields_pure true
  | cons first rest ih =>
    obtain ⟨hfr, hpr⟩ := allOf_cons.1 hp
    have har := ha.mono (subset_cons_self _ _)
    cases first with
    | guard id pred =>
      rw [accepts, isAccepted]
      refine (yields_holds hf hfr hr).bind ?_
      cases pred.isTrue tree bindings with
      | true => exact ih hpr har hr
      | false => exact yields_pure false
    | bind name node => exact ih hpr har (ha.put hr)

/-- Settling with a record leaves what is left without one. -/
theorem yields_settle (hp : AllOf root pending) (ha : Awaited root tree chain pending)
    (hr : Reached root tree start chain bindings) :
    Yields root tree (Breaks root tree · start chain) (settle tree bindings pending)
      (leftOver tree pending bindings) := by
  induction pending generalizing bindings with
  | nil => exact yields_pure (some [])
  | cons first rest ih =>
    obtain ⟨hfr, hpr⟩ := allOf_cons.1 hp
    have har := ha.mono (subset_cons_self _ _)
    cases first with
    | guard id pred =>
      rw [settle, leftOver]
      split
      · refine (yields_holds hf hfr hr).bind ?_
        cases pred.isTrue tree bindings with
        | true => exact ih hpr har hr
        | false => exact yields_pure none
      · refine (ih hpr har hr).bind ?_
        cases leftOver tree rest bindings with
        | none | some => exact yields_pure _
    | bind name node =>
      rw [settle, leftOver]
      refine (ih hpr har (ha.put hr)).bind ?_
      cases leftOver tree rest (bindings.put name (.one node)) with
      | none => exact yields_pure none
      | some left =>
        cases left with
        | nil | cons => exact yields_pure _

theorem yields_accepted (hp : AllOf root pending) (ha : Awaited root tree chain pending) {bound : Bindings}
    (hr : Reached root tree start chain (bindings.add bound)) :
    Yields root tree (Breaks root tree · start chain) (accepted tree bindings pending bound)
      (Plain.accepted bindings (isAccepted tree pending) bound) := by
  rw [accepted, Plain.accepted]
  refine (yields_accepts hf hp ha hr).bind ?_
  cases isAccepted tree pending (bindings.add bound) with
  | true | false => exact yields_pure _

/-! ## Recalling -/

/-- What is recalled or found anew for a node is what is found without a record. -/
theorem yields_recallNode {instr : Instr} {find : Matching (Option Bindings)} (hky : key.Describes root instr pending)
    (hfn : Yields root tree may find (Plain.matchNode tree instr key.node key.bindings (isAccepted tree pending))) :
    Yields root tree may (recallNode key find)
      (Plain.matchNode tree instr key.node key.bindings (isAccepted tree pending)) := by
  intro record hv
  refine gives_get ?_
  split
  next outcome hk =>
    rw [hv.nodes _ _ hk _ _ hky]
    exact gives_pure hv outcome
  · refine (hfn record hv).bind fun after ha => ?_
    exact gives_modify (gives_pure (ha.insert_node hf hky) _)

theorem yields_recallList {key : ListKey} {anchored : Bool} {find : Matching (Option (Bindings × Nat))}
    (hky : key.Describes root tree anchored items siblings pending) (hfn : Yields root tree may find
      (Plain.matchItems tree anchored items siblings key.bindings (isAccepted tree pending))) :
    Yields root tree may (recallList key find)
      (Plain.matchItems tree anchored items siblings key.bindings (isAccepted tree pending)) := by
  intro record hv
  refine gives_get ?_
  split
  next outcome hk =>
    rw [hv.lists _ _ hk _ _ _ _ hky]
    exact gives_pure hv outcome
  · refine (hfn record hv).bind fun after ha => ?_
    exact gives_modify (gives_pure (ha.insert_list hf hky) _)

end

end Match

end TreeLint
