import TreeLint.Proofs.GuardBreakdown
import TreeLint.Proofs.GuardReads

/-!
# Matching under watch

The same matching raises an alarm where it would go wrong: where a reference or a guard looks at a name that stands for
nothing, where an ellipsis or a run of siblings is to be matched at a single node, and where a name is bound that was
bound before.

* `Watched.matchNode`, `Watched.matchItems`: matching with such alarms;
* `Agrees`: with a valid record, two computations do the same, and no guard is noted that read an unbound name;
* `unalarmed`: for a pattern that compiles no alarm is raised.
-/

namespace TreeLint

open List

namespace Match

open Pattern (Instr Formed)

namespace Watched

/-- Whether a guard holds. All names that it reads should be bound. -/
def holds (alarm : Breakdown) (tree : Tree) (id : Nat) (predicate : Predicate) (bindings : Bindings) : Matching Bool :=
  if predicate.references.all bindings.has then Match.holds tree id predicate bindings else throw alarm

def accepts (alarm : Breakdown) (tree : Tree) (bindings : Bindings) : List Pending → Matching Bool
  | [] => return true
  | .guard id predicate :: rest => do
    if ← holds alarm tree id predicate bindings then accepts alarm tree bindings rest else return false
  | .bind name node :: rest => accepts alarm tree (bindings.put name (.one node)) rest

/-- What is left of a pending chain once the guards that can be decided are, or nothing if one of them fails. -/
def settle (alarm : Breakdown) (tree : Tree) (bindings : Bindings) : List Pending → Matching (Option (List Pending))
  | [] => return some []
  | .guard id predicate :: rest => do
    if predicate.references.all bindings.has then
      if ← holds alarm tree id predicate bindings then settle alarm tree bindings rest else return none
    else
      match ← settle alarm tree bindings rest with
      | none => return none
      | some left => return some (.guard id predicate :: left)
  | .bind name node :: rest => do
    match ← settle alarm tree (bindings.put name (.one node)) rest with
    | none => return none
    | some [] => return some []
    | some left => return some (.bind name node :: left)

def accepted (alarm : Breakdown) (tree : Tree) (bindings : Bindings) (pending : List Pending) (bound : Bindings := []) :
    Matching (Option Bindings) := do
  if ← accepts alarm tree (bindings.add bound) pending then return some bound else return none

/-- What a search finds. It should not bind what was bound before. -/
def once {α : Type} (alarm : Breakdown) (before : List String) (names : α → List String)
    (search : Matching (Option α)) : Matching (Option α) := do
  let found ← search
  if found.any fun result => (names result).any before.contains then throw alarm else return found

mutual

/-- The first way an instruction matches a node for which the pending chain holds, where the names in `before` have been
bound on the way. -/
def matchNode (alarm : Breakdown) (tree : Tree) (instr : Instr) (node : Nat) (before : List String)
    (bindings : Bindings) (pending : List Pending) : Matching (Option Bindings) :=
  once alarm before Bindings.names do
    match ← settle alarm tree bindings pending with
    | none => return none
    | some pending =>
      let bindings := relevant bindings (fun _ => instr.reads) pending
      recallNode { id := instr.id, node, bindings, pending := pending.map Pending.key } do
        match instr with
        | .kind _ _ kindId =>
          if (tree.node node).kindId == kindId then accepted alarm tree bindings pending else return none
        | .node id _ kindId items =>
          if (tree.node node).kindId == kindId then
            let children := tree.significantChildren node
            return (← matchItems alarm tree id node true items children children.length before bindings
              pending).map (·.1)
          else return none
        | .wildcard _ => accepted alarm tree bindings pending
        | .text _ value =>
          if tree.text node == Text.ofString value then accepted alarm tree bindings pending else return none
        | .regex _ _ compiled =>
          if compiled.isFoundIn (tree.text node) then accepted alarm tree bindings pending else return none
        | .metavar _ name => accepted alarm tree bindings pending [(name, .one node)]
        | .capture _ name inner =>
          let pending := if pending.isEmpty then [] else .bind name node :: pending
          let found ← once alarm [name] Bindings.names (matchNode alarm tree inner node before bindings pending)
          return found.map (·.put name (.one node))
        | .backref _ name =>
          if bindings.has name then
            if tree.text node == ((bindings.get? name).getD default).text tree then accepted alarm tree bindings pending
            else return none
          else throw alarm
        | .oneOf _ options => matchOptions alarm tree options node before bindings pending
        | .negation _ inner =>
          match ← matchNode alarm tree inner node before bindings [] with
          | some _ => return none
          | none => accepted alarm tree bindings pending
        | .deep _ inner =>
          firstFound (fun target => matchNode alarm tree inner target before bindings pending)
            ((node :: tree.descendants node).filter fun target => !(tree.node target).trivia)
        | .guarded id inner predicate =>
          matchNode alarm tree inner node before bindings (.guard id predicate :: pending)
        | .ellipsis _ | .siblings _ _ _ => throw alarm

def matchOptions (alarm : Breakdown) (tree : Tree) (options : List Instr) (node : Nat) (before : List String)
    (bindings : Bindings) (pending : List Pending) : Matching (Option Bindings) :=
  match options with
  | [] => return none
  | option :: options => do
    match ← matchNode alarm tree option node before bindings pending with
    | some found => return some found
    | none => matchOptions alarm tree options node before bindings pending

/-- The first way the items of an owner match the last `count` children of a parent, where the names in `before` have
been bound on the way. -/
def matchItems (alarm : Breakdown) (tree : Tree) (owner parent : Nat) (anchored : Bool) (items : List Instr)
    (siblings : List Nat) (count : Nat) (before : List String) (bindings : Bindings) (pending : List Pending) :
    Matching (Option (Bindings × Nat)) :=
  once alarm before (·.1.names) do
    match ← settle alarm tree bindings pending with
    | none => return none
    | some pending =>
      let bindings := relevant bindings (fun _ => Instr.readsOfAll items) pending
      let key : ListKey :=
        { owner, parent, items := items.length, siblings := count, bindings, pending := pending.map Pending.key }
      recallList key do
        match items with
        | [] =>
          if anchored && count != 0 then return none
          else return (← accepted alarm tree bindings pending).map (·, count)
        | item :: rest =>
          if item.isEllipsis then
            firstFound (fun taken => do
                let bound := runBindings item (siblings.take taken)
                let found ← matchItems alarm tree owner parent anchored rest (siblings.drop taken) (count - taken)
                  (before ++ bound.names) (bindings.add bound) pending
                return found.map fun (others, left) => (bound.add others, left))
              (takes anchored rest count)
          else
            match siblings with
            | [] => return none
            | sibling :: others =>
              if count - 1 < rest.countP (!·.isEllipsis) then return none
              else
                match ← matchNode alarm tree item sibling before bindings [] with
                | none => return none
                | some bound =>
                  let found ← matchItems alarm tree owner parent anchored rest others (count - 1)
                    (before ++ bound.names) (bindings.add bound) pending
                  return found.map fun (others, left) => (bound.add others, left)

end

def atNode (alarm : Breakdown) (tree : Tree) (root : Instr) (node : Nat) : Matching (Option Match) := do
  return (← matchNode alarm tree root node [] [] []).map fun captures => { anchor := node, captures, nodes := [node] }

def atNode? (alarm : Breakdown) (pattern : Pattern) (tree : Tree) (id : Int) :
    Matching (Except Misuse (Option Match)) := do
  if pattern.isSequence then return .error .notNodePattern
  else
    match tree.resolve? id with
    | some node => return .ok (← atNode alarm tree pattern.root node)
    | none => return .error (.noSuchNode id)

/-- The match of a run of siblings that starts with the first of the given children of a parent. -/
def ofSiblings (alarm : Breakdown) (tree : Tree) (owner : Nat) (items : List Instr) (pending : List Pending)
    (parent : Nat) (siblings : List Nat) : Matching (Option Match) := do
  match ← matchItems alarm tree owner parent false items siblings siblings.length [] [] pending with
  | none => return none
  | some (captures, left) =>
    match siblings.take (siblings.length - left) with
    | [] => return none
    | anchor :: others => return some { anchor, captures, nodes := anchor :: others }

def attempts (alarm : Breakdown) (pattern : Pattern) (tree : Tree) : List (Matching (Option Match)) :=
  match pattern.root with
  | .siblings id items guard =>
    let pending := match guard with
      | some predicate => [.guard id predicate]
      | none => []
    (siblingRuns tree).map fun (parent, siblings) => ofSiblings alarm tree id items pending parent siblings
  | root => (candidates pattern tree).map (atNode alarm tree root)

def trace (alarm : Breakdown) (pattern : Pattern) (tree : Tree) (record : Record) : Trace :=
  collect record [] (attempts alarm pattern tree)

end Watched

variable {root instr : Instr} {tree : Tree} {record : Record} {node : Nat} {pending left : List Pending}
  {bindings : Bindings} {alarm : Breakdown} {α β : Type} {first second : Matching α}

/-! ## Computations that do the same -/

/-- No guard was noted that read an unbound name. -/
def Record.Clean (record : Record) : Prop :=
  ∀ name, Predicate.Mishap.unbound name ∉ record.mishaps

/-- Starting with a record, two computations do the same, and no guard is noted that read an unbound name. -/
def Coincide (record : Record) (first second : Matching α) : Prop :=
  (first.run).run record = (second.run).run record ∧ ((second.run).run record).2.Clean

/-- Two computations do the same, whatever valid record they start with. -/
def Agrees (root : Instr) (tree : Tree) (first second : Matching α) : Prop :=
  ∀ record : Record, record.Valid root tree → record.Clean → Coincide record first second

theorem coincide_pure (hc : record.Clean) (value : α) : Coincide record (pure value) (pure value) :=
  ⟨rfl, hc⟩

theorem Coincide.get {first second : Record → Matching α} (h : Coincide record (first record) (second record)) :
    Coincide record (MonadState.get >>= first) (MonadState.get >>= second) :=
  h

theorem Coincide.modify {change : Record → Record} {first second : Unit → Matching α}
    (h : Coincide (change record) (first ()) (second ())) :
    Coincide record (modify change >>= first) (modify change >>= second) :=
  h

theorem Coincide.bind {next others : α → Matching β} (h : Coincide record first second)
    (hn : ∀ value after, (second.run).run record = (.ok value, after) → after.Clean →
      Coincide after (next value) (others value)) :
    Coincide record (first >>= next) (second >>= others) := by
  obtain ⟨heq, hc⟩ := h
  rw [Coincide, run_bind, run_bind, heq]
  rcases hr : (second.run).run record with ⟨outcome, after⟩
  rw [hr] at hc
  cases outcome with
  | ok value => exact hn value after hr hc
  | error breakdown => exact ⟨rfl, hc⟩

theorem agrees_pure (value : α) : Agrees root tree (pure value) (pure value) :=
  fun _ _ hc => coincide_pure hc value

theorem Agrees.bind {next others : α → Matching β} {value : α} {may : Breakdown → Prop}
    (h : Agrees root tree first second) (hv : Yields root tree may second value)
    (hn : Agrees root tree (next value) (others value)) :
    Agrees root tree (first >>= next) (second >>= others) := by
  intro record hvl hc
  refine (h record hvl hc).bind fun found after hr ha => ?_
  obtain ⟨hk, ho⟩ := hv record hvl
  rw [hr] at hk ho
  rcases ho with heq | ⟨breakdown, heq, -⟩
  · cases heq
    exact hn after hk ha
  · cases heq

theorem Agrees.map (f : α → β) (h : Agrees root tree first second) :
    Agrees root tree (do return f (← first)) (do return f (← second)) :=
  fun record hv hc => (h record hv hc).bind fun _ _ _ ha => coincide_pure ha _

/-- What is found binds nothing that was bound before, so there is no alarm. -/
theorem Agrees.once {first second : Matching (Option α)} {found : Option α} {before : List String}
    {names : α → List String} {may : Breakdown → Prop} (h : Agrees root tree first second)
    (hfn : Yields root tree may second found)
    (hnw : ∀ result, found = some result → ∀ name ∈ names result, name ∉ before) :
    Agrees root tree (Watched.once alarm before names first) second := by
  have hq : ¬ (found.any fun result => (names result).any before.contains) := by
    cases found with
    | none => exact Bool.false_ne_true
    | some result =>
      rw [Option.any_some, any_eq_true]
      rintro ⟨name, hn, hb⟩
      exact hnw result rfl name hn (contains_iff_mem.1 hb)
  rw [Watched.once, ← bind_pure second]
  refine h.bind hfn ?_
  rw [if_neg hq]
  exact agrees_pure found

private theorem agrees_firstFound {first second : α → Matching (Option β)} {candidates : List α}
    (h : ∀ candidate ∈ candidates, Agrees root tree (first candidate) (second candidate) ∧
      ∃ may found, Yields root tree may (second candidate) found) :
    Agrees root tree (firstFound first candidates) (firstFound second candidates) := by
  induction candidates with
  | nil => exact agrees_pure none
  | cons candidate candidates ih =>
    obtain ⟨ha, may, found, hfn⟩ := h candidate mem_cons_self
    rw [firstFound, firstFound]
    refine ha.bind hfn ?_
    cases found with
    | some result => exact agrees_pure (some result)
    | none => exact ih (forall_mem_cons.1 h).2

private theorem agrees_recallNode {key : NodeKey} {first second : Matching (Option Bindings)}
    (h : Agrees root tree first second) : Agrees root tree (recallNode key first) (recallNode key second) := by
  intro record hv hc
  refine Coincide.get ?_
  cases record.nodes[key]? with
  | some outcome => exact coincide_pure hc outcome
  | none =>
    refine (h record hv hc).bind fun outcome after _ ha => ?_
    exact Coincide.modify ⟨rfl, ha⟩

private theorem agrees_recallList {key : ListKey} {first second : Matching (Option (Bindings × Nat))}
    (h : Agrees root tree first second) : Agrees root tree (recallList key first) (recallList key second) := by
  intro record hv hc
  refine Coincide.get ?_
  cases record.lists[key]? with
  | some outcome => exact coincide_pure hc outcome
  | none =>
    refine (h record hv hc).bind fun outcome after _ ha => ?_
    exact Coincide.modify ⟨rfl, ha⟩

/-! ## Guards -/

private theorem agrees_holds {id : Nat} {pred : Predicate} (h : pred.references.all bindings.has) :
    Agrees root tree (Watched.holds alarm tree id pred bindings) (holds tree id pred bindings) := by
  rw [Watched.holds, if_pos h]
  intro record hv hc
  refine Coincide.get ?_
  cases record.verdicts[({ id, captures := pred.references.map bindings.get? } : GuardKey)]? with
  | some verdict => exact coincide_pure hc verdict
  | none =>
    have hfn : Predicate.Finds (pred.evaluate tree bindings) :=
      pred.finds_evaluate (all_eq_true.1 h)
    cases he : pred.evaluate tree bindings with
    | ok verdict => exact Coincide.modify ⟨rfl, hc⟩
    | error stop =>
      cases stop with
      | fault mishap =>
        refine Coincide.modify (coincide_pure (fun name hn => ?_) false)
        -- a mishap with bound names is another one
        rcases mem_cons.1 hn with rfl | hn
        · exact hfn name he
        · exact hc name hn
      | breakdown breakdown => exact ⟨rfl, hc⟩

section

variable (hf : Formed root)

include hf

private theorem agrees_accepts (hp : AllOf root pending) (h : ∀ name ∈ readsOf pending, name ∈ bindings.names) :
    Agrees root tree (Watched.accepts alarm tree bindings pending) (accepts tree bindings pending) := by
  induction pending generalizing bindings with
  | nil => exact agrees_pure true
  | cons first rest ih =>
    obtain ⟨hfr, hr⟩ := allOf_cons.1 hp
    cases first with
    | guard id pred =>
      have hb : pred.references.all bindings.has := all_eq_true.2 fun name hn =>
        Bindings.has_iff.2 (h name (mem_append_left _ hn))
      rw [Watched.accepts, accepts]
      refine (agrees_holds hb).bind (yields_holds hf hfr (@Reached.start _ _ _ [])) ?_
      cases pred.isTrue tree bindings with
      | true => exact ih hr fun name hn => h name (mem_append_right _ hn)
      | false => exact agrees_pure false
    | bind bound node =>
      refine ih hr fun name hn => Bindings.mem_names_put.2 ?_
      by_cases heq : name = bound
      · exact .inr heq
      · exact .inl (h name (mem_filter.2 ⟨hn, by simpa using heq⟩))

private theorem agrees_settle (hp : AllOf root pending) (bindings : Bindings) :
    Agrees root tree (Watched.settle alarm tree bindings pending) (settle tree bindings pending) := by
  induction pending generalizing bindings with
  | nil => exact agrees_pure (some [])
  | cons first rest ih =>
    obtain ⟨hfr, hr⟩ := allOf_cons.1 hp
    cases first with
    | guard id pred =>
      rw [Watched.settle, settle]
      by_cases hb : pred.references.all bindings.has
      · rw [if_pos hb, if_pos hb]
        refine (agrees_holds hb).bind (yields_holds hf hfr (@Reached.start _ _ _ [])) ?_
        cases pred.isTrue tree bindings with
        | true => exact ih hr bindings
        | false => exact agrees_pure none
      · rw [if_neg hb, if_neg hb]
        refine (ih hr bindings).bind (yields_settle hf hr awaited_self .start) ?_
        cases leftOver tree rest bindings with
        | none | some => exact agrees_pure _
    | bind name node =>
      rw [Watched.settle, settle]
      refine (ih hr _).bind (yields_settle hf hr awaited_self .start) ?_
      cases leftOver tree rest (bindings.put name (.one node)) with
      | none => exact agrees_pure none
      | some left =>
        cases left with
        | nil | cons => exact agrees_pure _

private theorem agrees_settled (hp : AllOf root pending) {first second : List Pending → Matching (Option α)}
    (h : ∀ left, leftOver tree pending bindings = some left → Agrees root tree (first left) (second left)) :
    Agrees root tree (do
        match ← Watched.settle alarm tree bindings pending with
        | none => return none
        | some left => first left)
      (do
        match ← settle tree bindings pending with
        | none => return none
        | some left => second left) := by
  refine (agrees_settle hf hp bindings).bind (yields_settle hf hp awaited_self .start) ?_
  cases hl : leftOver tree pending bindings with
  | none => exact agrees_pure none
  | some left => exact h left hl

private theorem agrees_accepted (hp : AllOf root pending) {bound : Bindings}
    (h : ∀ name ∈ readsOf pending, name ∈ bindings.names ∨ name ∈ bound.names) :
    Agrees root tree (Watched.accepted alarm tree bindings pending bound) (accepted tree bindings pending bound) := by
  rw [Watched.accepted, accepted]
  refine (agrees_accepts hf hp fun name hn => Bindings.mem_names_add.2 (h name hn)).bind
    (yields_accepts hf hp awaited_self .start) ?_
  cases isAccepted tree pending (bindings.add bound) with
  | true | false => exact agrees_pure _

end

/-! ## Where an instruction is matched -/

/-- Settling makes no pending chain read more. -/
private theorem readsOf_leftOver_subset (h : leftOver tree pending bindings = some left) :
    readsOf left ⊆ readsOf pending := by
  induction pending generalizing bindings left with
  | nil =>
    cases h
    exact List.Subset.refl _
  | cons first rest ih =>
    cases first with
    | guard id pred =>
      unfold leftOver at h
      split at h
      · split at h
        · exact fun name hn => mem_append_right _ (ih h hn)
        · cases h
      · obtain ⟨later, hl, rfl⟩ := Option.map_eq_some_iff.1 h
        intro name hn
        rcases mem_append.1 hn with hn | hn
        · exact mem_append_left _ hn
        · exact mem_append_right _ (ih hl hn)
    | bind bound node =>
      obtain ⟨later, hl, rfl⟩ := Option.map_eq_some_iff.1 h
      split
      · exact nil_subset _
      · intro name hn
        obtain ⟨hn, hne⟩ := mem_filter.1 hn
        exact mem_filter.2 ⟨ih hl hn, hne⟩

/-- What is known where something is matched that reads and certainly binds some names: no other names are bound than
those in `before`, which may be bound by then, those of the names in `sure` that are read are bound, and all names that
the pending chain reads are bound or will be. -/
structure Situated (sure possible before reads binds : List String) (bindings : Bindings)
    (pending : List Pending) : Prop where
  bound : bindings.names ⊆ before
  possible : before ⊆ possible
  known : ∀ name ∈ reads, name ∈ sure → name ∈ bindings.names
  awaited : ∀ name ∈ readsOf pending, name ∈ bindings.names ∨ name ∈ binds

namespace Situated

variable {sure possible before reads binds : List String}

private theorem mem_names_relevant {name : String} (hn : name ∈ reads ∨ name ∈ readsOf pending)
    (h : name ∈ bindings.names) : name ∈ (relevant bindings (fun _ => reads) pending).names := by
  rw [← Bindings.has_iff, Bindings.has, get?_relevant hn]
  exact Bindings.has_iff.2 h

theorem settled (h : Situated sure possible before reads binds bindings pending)
    (hl : leftOver tree pending bindings = some left) :
    Situated sure possible before reads binds (relevant bindings (fun _ => reads) left) left where
  bound _ hn := h.bound (mem_names_of_mem_names_relevant hn)
  possible := h.possible
  known name hn hs := mem_names_relevant (.inl hn) (h.known name hn hs)
  awaited name hn :=
    (h.awaited name (readsOf_leftOver_subset hl hn)).imp_left (mem_names_relevant (.inr hn))

theorem part (h : Situated sure possible before reads binds bindings pending) {fewer more : List String}
    (hr : fewer ⊆ reads) {others : List Pending}
    (ha : ∀ name ∈ readsOf others, name ∈ bindings.names ∨ name ∈ more) :
    Situated sure possible before fewer more bindings others where
  bound := h.bound
  possible := h.possible
  known name hn := h.known name (hr hn)
  awaited := ha

theorem fresh (h : Situated sure possible before reads binds bindings pending) {names : List String}
    (hn : ∀ name ∈ names, name ∉ possible) : Fresh names bindings :=
  fun name hnm hm => hn name hm (h.possible (h.bound hnm))

theorem rest {item : Instr} {rest : List Instr} {bound : Bindings}
    (h : Situated sure possible before (Instr.readsOfAll (item :: rest)) (Instr.surelyBindOfAll (item :: rest))
      bindings pending)
    (hs : ∀ name ∈ item.surelyBinds, name ∈ bound.names) (hm : ∀ name ∈ bound.names, name ∈ item.mayBind) :
    Situated (sure ++ item.surelyBinds) (possible ++ item.mayBind) (before ++ bound.names) (Instr.readsOfAll rest)
      (Instr.surelyBindOfAll rest) (bindings.add bound) pending where
  bound name hn :=
    mem_append.2 ((Bindings.mem_names_add.1 hn).imp_left fun hn => h.bound hn)
  possible name hn :=
    mem_append.2 ((mem_append.1 hn).imp (fun hn => h.possible hn) (hm name))
  known name hn hk := by
    refine Bindings.mem_names_add.2 ((mem_append.1 hk).imp (fun hk => ?_) (hs name))
    exact h.known name (mem_append_right _ hn) hk
  awaited name hn := by
    rcases h.awaited name hn with hb | hbn
    · exact .inl (Bindings.mem_names_add.2 (.inl hb))
    · exact (mem_append.1 hbn).imp_left fun hi => Bindings.mem_names_add.2 (.inr (hs name hi))

end Situated

/-! ## Every instruction -/

/-- Where an instruction may be matched, matching it raises no alarm. -/
def Unalarmed (root : Instr) (tree : Tree) (alarm : Breakdown) (instr : Instr) : Prop :=
  ∀ (sure possible before : List String) (node : Nat) (bindings : Bindings) (pending : List Pending),
    IsPlace tree node → instr.Scoped sure possible →
      Situated sure possible before instr.reads instr.surelyBinds bindings pending → AllOf root pending →
      Agrees root tree (Watched.matchNode alarm tree instr node before bindings pending)
        (matchNode tree instr node bindings pending)

private theorem agrees_matchOptions_of {options : List Instr} {sure possible before : List String}
    (hf : Formed root) (hp : ∀ option ∈ options, option.parts ⊆ root.parts)
    (ho : ∀ option ∈ options, Unalarmed root tree alarm option) (hn : IsPlace tree node)
    (hs : ∀ option ∈ options, option.Scoped sure possible)
    (hst : ∀ option ∈ options, Situated sure possible before option.reads option.surelyBinds bindings pending)
    (hpn : AllOf root pending) :
    Agrees root tree (Watched.matchOptions alarm tree options node before bindings pending)
      (matchOptions tree options node bindings pending) := by
  induction options with
  | nil => exact agrees_pure none
  | cons option options ih =>
    have hm : option ∈ option :: options := mem_cons_self
    have hfr : Fresh option.binders bindings := (hst option hm).fresh (hs option hm).fresh
    rw [Watched.matchOptions, matchOptions]
    refine (ho option hm _ _ _ node _ _ hn (hs option hm) (hst option hm) hpn).bind
      (recorded hf option (hp option hm) node bindings pending hn hfr hpn awaited_self .start) ?_
    cases Plain.matchNode tree option node bindings (isAccepted tree pending) with
    | some found => exact agrees_pure (some found)
    | none =>
      exact ih (forall_mem_cons.1 hp).2 (forall_mem_cons.1 ho).2 (forall_mem_cons.1 hs).2 (forall_mem_cons.1 hst).2

section

variable {owner : Instr} {anchored : Bool} {all items : List Instr} {parent : Nat} {siblings : List Nat}
  {sure possible before : List String}

open Pattern.Instr (bindersOfAll Separate ScopedList)

theorem agrees_matchItems_of (hf : Formed root) (ho : owner ∈ root.parts)
    (hall : owner.list? = some (anchored, all)) (hi : items <:+ all)
    (hp : ∀ item ∈ items, item.parts ⊆ root.parts) (hu : ∀ item ∈ items, Unalarmed root tree alarm item)
    (hs : Separate items) (hsb : siblings <:+ tree.significantChildren parent)
    (hsc : ScopedList sure possible items)
    (hst : Situated sure possible before (Instr.readsOfAll items) (Instr.surelyBindOfAll items) bindings pending)
    (hpn : AllOf root pending) :
    Agrees root tree
      (Watched.matchItems alarm tree owner.id parent anchored items siblings siblings.length before bindings pending)
      (matchItems tree owner.id parent anchored items siblings siblings.length bindings pending) := by
  induction items generalizing siblings bindings pending sure possible before with
  | nil =>
    have hfr : Fresh [] bindings := fun _ _ hm => absurd hm not_mem_nil
    rw [Watched.matchItems]
    refine Agrees.once ?_ (yields_matchItems_of hf ho hall hi
      (fun item hit => recorded hf item (hp item hit)) hs hsb hfr hpn awaited_self .start)
      fun found hfn name hn => absurd ((Plain.matchItems_sound hfn).mayBind name hn) not_mem_nil
    rw [matchItems]
    refine agrees_settled hf hpn fun left hl => agrees_recallList ?_
    dsimp only
    split
    · exact agrees_pure none
    · exact (agrees_accepted hf (hpn.mono (subset_of_leftOver hl)) (hst.settled hl).awaited).map _
  | cons item rest ih =>
    have hr {start : Bindings} {chain : List Pending} : ∀ other ∈ item :: rest, Recorded root tree start chain other :=
      fun other hot => recorded hf other (hp other hot)
    have hrs : rest <:+ all := (suffix_cons item rest).trans hi
    have hfr : Fresh (bindersOfAll (item :: rest)) bindings := hst.fresh hsc.fresh
    rw [Watched.matchItems]
    refine Agrees.once ?_ (yields_matchItems_of hf ho hall hi hr hs hsb hfr hpn awaited_self .start)
      fun found hfn name hn => ?_
    · rw [matchItems]
      refine agrees_settled hf hpn fun left hl => agrees_recallList ?_
      dsimp only
      have hse := hst.settled hl
      generalize relevant bindings (fun _ => Instr.readsOfAll (item :: rest)) left = settled at hse ⊢
      have hof := hpn.mono (subset_of_leftOver hl)
      -- the rest of the list, after the item has bound something
      have hnx : ∀ (others : List Nat) (bound : Bindings), others <:+ tree.significantChildren parent →
          (∀ name ∈ item.surelyBinds, name ∈ bound.names) → (∀ name ∈ bound.names, name ∈ item.mayBind) →
          Agrees root tree
              (Watched.matchItems alarm tree owner.id parent anchored rest others others.length (before ++ bound.names)
                (settled.add bound) left)
              (matchItems tree owner.id parent anchored rest others others.length (settled.add bound) left) ∧
            Yields root tree (Breaks root tree · (settled.add bound) left)
              (matchItems tree owner.id parent anchored rest others others.length (settled.add bound) left)
              (Plain.matchItems tree anchored rest others (settled.add bound) (isAccepted tree left)) := by
        intro others bound hsf hsr hmy
        have ha := hse.rest hsr hmy
        exact ⟨ih hrs (forall_mem_cons.1 hp).2 (forall_mem_cons.1 hu).2 hs.2 hsf hsc.2 ha hof,
          yields_matchItems_of hf ho hall hrs (forall_mem_cons.1 hr).2 hs.2 hsf (ha.fresh hsc.2.fresh) hof awaited_self
            .start⟩
      by_cases hit : item.isEllipsis
      · rw [if_pos hit, if_pos hit]
        refine agrees_firstFound fun taken _ => ?_
        obtain ⟨hag, hy⟩ := hnx (siblings.drop taken) (runBindings item (siblings.take taken))
          ((drop_suffix taken siblings).trans hsb)
          (fun name hn => Plain.mem_names_runBindings hit _ hn) fun name => Plain.mem_mayBind_of_runBindings
        rw [length_drop] at hag hy
        exact ⟨hag.map _, _, _, hy.map _⟩
      · rw [if_neg hit, if_neg hit]
        have hsc := hsc.1
        rw [if_neg hit] at hsc
        cases siblings with
        | nil => exact agrees_pure none
        | cons sibling siblings =>
          dsimp only
          split
          · exact agrees_pure none
          · have hrd : item.reads ⊆ Instr.readsOfAll (item :: rest) := subset_append_left _ _
            have hb : Fresh item.binders settled := hse.fresh hsc.fresh
            have hpl := isPlace_of_suffix hsb mem_cons_self
            refine (hu item mem_cons_self _ _ _ sibling settled [] hpl hsc (hse.part hrd (forall_mem_nil _))
              allOf_nil).bind (hr item mem_cons_self sibling settled [] hpl hb allOf_nil awaited_self .start) ?_
            cases hbn : Plain.matchNode tree item sibling settled (isAccepted tree []) with
            | none => exact agrees_pure none
            | some bound =>
              exact (hnx siblings bound ((suffix_cons sibling siblings).trans hsb)
                (Plain.sound tree item _ _ _ _ hbn).surelyBinds
                (Plain.sound tree item _ _ _ _ hbn).mayBind).1.map _
    · have hmy := (Plain.matchItems_sound hfn).mayBind name hn
      exact fun hbf => hsc.fresh name (Instr.mayBindOfAll_subset _ hmy) (hst.possible hbf)

end

/-- Matching an instruction of a pattern raises no alarm where the instruction may be matched. -/
theorem unalarmed (hf : Formed root) (instr : Instr) (hp : instr.parts ⊆ root.parts) :
    Unalarmed root tree alarm instr := by
  induction instr using Instr.induction with
  | step instr ih =>
    have hi : ∀ child ∈ instr.children, child.parts ⊆ root.parts :=
      fun child hc part hpr => hp (Instr.parts_child_subset hc hpr)
    have hch : ∀ child ∈ instr.children, Unalarmed root tree alarm child :=
      fun child hc => ih child hc (hi child hc)
    have hm : instr ∈ root.parts := hp instr.self_mem_parts
    intro sure possible before node bindings pending hpl hs hst hpn
    have hfr : Fresh instr.binders bindings := hst.fresh hs.fresh
    rw [Watched.matchNode]
    refine Agrees.once ?_ (recorded hf instr hp node bindings pending hpl hfr hpn awaited_self .start)
      fun found hfn name hn => ?_
    · rw [matchNode]
      refine agrees_settled hf hpn fun left hl => agrees_recallNode ?_
      have hse := hst.settled hl
      generalize relevant bindings (fun _ => instr.reads) left = settled at hse ⊢
      have hof := hpn.mono (subset_of_leftOver hl)
      have hfr : Fresh instr.binders settled := hse.fresh hs.fresh
      -- what binds nothing has to find everything bound that is awaited
      have ha : instr.surelyBinds = [] →
          Agrees root tree (Watched.accepted alarm tree settled left []) (accepted tree settled left []) := by
        intro hnn
        refine agrees_accepted hf hof fun name hn => .inl ?_
        refine (hse.awaited name hn).resolve_right ?_
        rw [hnn]
        exact not_mem_nil
      cases instr with
      | kind | text | regex =>
        dsimp only
        split
        · exact ha rfl
        · exact agrees_pure none
      | wildcard => exact ha rfl
      | backref id name =>
        have hb : settled.has name :=
          Bindings.has_iff.2 (hse.known name (mem_singleton_self name) hs)
        dsimp only
        rw [if_pos hb]
        split
        · exact ha rfl
        · exact agrees_pure none
      | ellipsis | siblings => exact hs.elim
      | metavar id name => exact agrees_accepted hf hof hse.awaited
      | node id name kindId items =>
        dsimp only
        split
        · have hsp := hf.separate _ hm true items rfl
          exact (agrees_matchItems_of hf hm rfl suffix_rfl hi hch hsp suffix_rfl hs hse hof).map _
        · exact agrees_pure none
      | capture id name inner =>
        obtain ⟨-, hn, hs⟩ := hs
        have hfr : Fresh inner.binders settled := hfr.mono (subset_cons_self _ _)
        have hinn : ∀ others, AllOf root others → (∀ other ∈ readsOf others, other ∈ readsOf left ∧ other ≠ name) →
            Agrees root tree
              (Watched.once alarm [name] Bindings.names (Watched.matchNode alarm tree inner node before settled others))
              (matchNode tree inner node settled others) := by
          intro others hof ho
          have haw : ∀ other ∈ readsOf others, other ∈ settled.names ∨ other ∈ inner.surelyBinds := by
            intro other hot
            obtain ⟨hot, hne⟩ := ho other hot
            refine (hse.awaited other hot).imp_right fun hm => ?_
            exact (mem_append.1 hm).resolve_right fun heq => hne (mem_singleton.1 heq)
          refine Agrees.once (hch inner mem_cons_self _ _ _ node settled others hpl hs
              (hse.part (List.Subset.refl _) haw) hof)
            (recorded hf inner (hi inner mem_cons_self) node settled others hpl hfr hof awaited_self .start)
            fun found hfn other hot heq => ?_
          rw [mem_singleton.1 heq] at hot
          exact hn ((Plain.sound tree inner _ _ _ _ hfn).mayBind name hot)
        -- with nothing pending, no guard has to know the name
        cases left with
        | nil => exact (hinn [] allOf_nil (forall_mem_nil _)).map _
        | cons first rest =>
          refine (hinn (.bind name node :: first :: rest) (allOf_cons.2 ⟨trivial, hof⟩) fun other hot => ?_).map _
          obtain ⟨hot, hne⟩ := mem_filter.1 hot
          exact ⟨hot, by simpa using hne⟩
      | oneOf id options =>
        refine agrees_matchOptions_of hf hi hch hpl (fun option hop => hs.scoped hop)
          (fun option hop => hse.part ?_ fun name hn => ?_) hof
        · exact Instr.reads_subset_readsOfAll hop
        · exact (hse.awaited name hn).imp_right (Plain.mem_surelyBinds_of_mem_each hop)
      | negation id inner =>
        have hinn : Situated sure possible before inner.reads inner.surelyBinds settled [] :=
          hse.part (List.Subset.refl _) (forall_mem_nil _)
        refine (hch inner mem_cons_self _ _ _ node settled [] hpl hs hinn allOf_nil).bind
          (recorded hf inner (hi inner mem_cons_self) node settled [] hpl hfr allOf_nil awaited_self .start) ?_
        cases Plain.matchNode tree inner node settled (isAccepted tree []) with
        | some => exact agrees_pure none
        | none => exact ha rfl
      | deep id inner =>
        refine agrees_firstFound fun target ht => ?_
        have hpl := isPlace_of_mem_targets hpl ht
        exact ⟨hch inner mem_cons_self _ _ _ target settled left hpl hs hse hof, _, _,
          recorded hf inner (hi inner mem_cons_self) target settled left hpl hfr hof awaited_self .start⟩
      | guarded id inner pred =>
        have hg : AllOf root (.guard id pred :: left) := allOf_cons.2 ⟨⟨_, hm, rfl, rfl⟩, hof⟩
        have haw : ∀ name ∈ readsOf (.guard id pred :: left),
            name ∈ settled.names ∨ name ∈ inner.surelyBinds := by
          intro name hn
          rcases mem_append.1 hn with hn | hn
          · exact (hs.2 name hn).imp_left (hse.known name (mem_append_right _ hn))
          · exact hse.awaited name hn
        exact hch inner mem_cons_self _ _ _ node settled _ hpl hs.1 (hse.part (subset_append_left _ _) haw) hg
    · have hmy := (Plain.sound tree instr _ _ _ _ hfn).mayBind name hn
      exact fun hbf => hs.fresh name (instr.mayBind_subset hmy) (hst.possible hbf)

end Match

end TreeLint
