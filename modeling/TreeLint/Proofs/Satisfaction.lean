import Mathlib
import TreeLint.Proofs.CaptureSafety
import TreeLint.Proofs.Descendants
import TreeLint.Proofs.KnownKinds

/-!
# What a pattern says of a node

A pattern is satisfied by a node, with captures, or it is not, however it is matched. A kind with a list of children is
satisfied if the significant children can be divided among the items: a fixed item takes one child that satisfies it,
and an ellipsis takes any number. Guards and references look at the captures of the whole match.

* `Satisfies`, `Divides`: satisfaction of an instruction, and of a list by siblings;
* `satisfies_congr`: without guards and references it does not matter what is captured elsewhere;
* `faithful`: what is found satisfies the instruction, and without guards and references something is found wherever
  the instruction is satisfied;
* `matches_mean`: the same of matches in parsed trees.
-/

namespace TreeLint

open List TreeLint.Tree Pattern Grammar

namespace Pattern.Instr

/-- Whether an instruction looks at what has been captured: a reference, or one with a guard. -/
def looksBack : Instr → Bool
  | backref _ _ | guarded _ _ _ => true
  | siblings _ _ guard => guard.isSome
  | _ => false

def negates : Instr → Bool
  | negation _ _ => true
  | _ => false

/-- There are no references and no guards in an instruction. -/
def Unconditional (instr : Instr) : Prop :=
  ∀ part ∈ instr.parts, part.looksBack = false

/-- There are no references and no guards in what is negated in an instruction. -/
def NegatesUnconditionally (instr : Instr) : Prop :=
  ∀ part ∈ instr.parts, part.negates → part.Unconditional

variable {instr inner : Instr}

theorem Unconditional.child (h : instr.Unconditional) (hi : inner ∈ instr.children) : inner.Unconditional :=
  fun part hp => h part (parts_child_subset hi hp)

theorem NegatesUnconditionally.child (h : instr.NegatesUnconditionally) (hi : inner ∈ instr.children) :
    inner.NegatesUnconditionally :=
  fun part hp => h part (parts_child_subset hi hp)

private theorem Unconditional.negatesUnconditionally (h : instr.Unconditional) : instr.NegatesUnconditionally :=
  fun _ hp _ inner hi => h inner (parts_subset_of_mem hp hi)

end Pattern.Instr

/-! ## Captures side by side -/

namespace Bindings

variable {name : String} {binding : Binding} {bindings others : Bindings}

private theorem put_of_not_mem (h : name ∉ bindings.names) :
    bindings.put name binding = bindings ++ [(name, binding)] := by
  rw [put, filter_eq_self.2]
  intro entry he
  rw [bne_iff_ne]
  rintro rfl
  exact h (mem_map_of_mem he)

private theorem names_append : names (bindings ++ others) = bindings.names ++ others.names :=
  map_append

private theorem add_eq_append (hnw : ∀ name ∈ others.names, name ∉ bindings.names) (hn : others.names.Nodup) :
    bindings.add others = bindings ++ others := by
  induction others generalizing bindings with
  | nil => exact (append_nil _).symm
  | cons entry others ih =>
    obtain ⟨name, binding⟩ := entry
    obtain ⟨hf, hr⟩ := nodup_cons.1 hn
    rw [add_cons, put_of_not_mem (hnw name mem_cons_self), ih ?_ hr, append_assoc]
    · rfl
    · intro other ho hm
      rw [names_append] at hm
      rcases mem_append.1 hm with hm | hm
      · exact hnw other (mem_cons_of_mem _ ho) hm
      · rw [mem_singleton.1 hm] at ho
        exact hf ho

end Bindings

namespace Match

/-! ## Satisfaction -/

mutual

/-- A node satisfies an instruction, with captures. Guards and references look at the final captures. -/
def Satisfies (tree : Tree) (final : Bindings) (instr : Instr) (node : Nat) (captures : Bindings) : Prop :=
  match instr with
  | .kind _ _ kindId => (tree.node node).kindId = kindId ∧ captures = []
  | .node _ _ kindId items =>
    (tree.node node).kindId = kindId ∧ Divides tree final items (tree.significantChildren node) captures
  | .wildcard _ => captures = []
  | .text _ value => tree.text node = Text.ofString value ∧ captures = []
  | .regex _ _ compiled => compiled.isFoundIn (tree.text node) ∧ captures = []
  | .metavar _ name => captures = [(name, .one node)]
  | .capture _ name inner => ∃ below, Satisfies tree final inner node below ∧ captures = below ++ [(name, .one node)]
  | .backref _ name =>
    (∃ binding, final.get? name = some binding ∧ tree.text node = binding.text tree) ∧ captures = []
  | .oneOf _ options => SatisfiesOne tree final options node captures
  | .negation _ inner => (∀ below, ¬ Satisfies tree final inner node below) ∧ captures = []
  | .deep _ inner =>
    ∃ target, (target = node ∨ tree.Below node target) ∧ (tree.node target).trivia = false ∧
      Satisfies tree final inner target captures
  | .guarded _ inner predicate =>
    Satisfies tree final inner node captures ∧ predicate.evaluate tree final = .ok true
  | .ellipsis _ | .siblings _ _ _ => False

def SatisfiesOne (tree : Tree) (final : Bindings) (options : List Instr) (node : Nat) (captures : Bindings) : Prop :=
  match options with
  | [] => False
  | option :: options => Satisfies tree final option node captures ∨ SatisfiesOne tree final options node captures

/-- Siblings can be divided among items, with captures. -/
def Divides (tree : Tree) (final : Bindings) (items : List Instr) (siblings : List Nat) (captures : Bindings) : Prop :=
  match items with
  | [] => siblings = [] ∧ captures = []
  | item :: items =>
    if item.isEllipsis then
      ∃ taken rest others, siblings = taken ++ rest ∧ Divides tree final items rest others ∧
        captures = runBindings item taken ++ others
    else
      ∃ sibling rest bound others, siblings = sibling :: rest ∧ Satisfies tree final item sibling bound ∧
        Divides tree final items rest others ∧ captures = bound ++ others

end

variable {tree : Tree} {final : Bindings} {instr : Instr} {items options : List Instr} {node : Nat}
  {siblings : List Nat} {bindings captures found : Bindings} {check : Bindings → Bool}

private theorem satisfiesOne_iff :
    SatisfiesOne tree final options node captures ↔ ∃ option ∈ options, Satisfies tree final option node captures := by
  induction options with
  | nil => simp [SatisfiesOne]
  | cons option options ih => simp [SatisfiesOne, ih]

/-! ## What is captured elsewhere -/

private theorem divides_congr_of {others : Bindings}
    (hi : ∀ item ∈ items, ∀ node captures, Satisfies tree final item node captures ↔
      Satisfies tree others item node captures) (siblings : List Nat) (captures : Bindings) :
    Divides tree final items siblings captures ↔ Divides tree others items siblings captures := by
  induction items generalizing siblings captures with
  | nil => rfl
  | cons item items ih =>
    have hr := ih (forall_mem_cons.1 hi).2
    unfold Divides
    simp only [hi item mem_cons_self, hr]

/-- Without guards and references it does not matter what is captured elsewhere. -/
theorem satisfies_congr (h : instr.Unconditional) (final others : Bindings) (node : Nat) (captures : Bindings) :
    Satisfies tree final instr node captures ↔ Satisfies tree others instr node captures := by
  induction instr using Instr.induction generalizing node captures with
  | step instr ih =>
    have hc := fun child hch => ih child hch (h.child hch)
    unfold Satisfies
    cases instr with
    | backref | guarded => cases h _ (Instr.self_mem_parts _)
    | node id name kindId items => exact and_congr_right fun _ => divides_congr_of hc _ _
    | oneOf id options =>
      simp only [satisfiesOne_iff]
      exact exists_congr fun option => and_congr_right fun ho => hc option ho node captures
    | capture id name inner | negation id inner | deep id inner => simp only [hc inner mem_cons_self]
    | _ => rfl

/-! ## What is found -/

private theorem isTrue_iff {pred : Predicate} :
    pred.isTrue tree bindings ↔ pred.evaluate tree bindings = .ok true := by
  unfold Predicate.isTrue
  split
  next truth heq => rw [heq, Except.ok.injEq]
  next stop heq =>
    rw [heq]
    exact ⟨nofun, nofun⟩

private theorem Extends.of_add {others : Bindings} (h : Extends (bindings.add others) final)
    (hnw : ∀ name ∈ others.names, name ∉ bindings.names) : Extends bindings final := by
  intro name hn
  have hk := extends_add hnw name hn
  rw [h name (by rw [Bindings.has, hk]; exact hn), hk]

private theorem Plain.isSome_matchOptions {option : Instr} (ho : option ∈ options)
    (h : (Plain.matchNode tree option node bindings check).isSome) :
    (Plain.matchOptions tree options node bindings check).isSome := by
  induction options with
  | nil => cases ho
  | cons first options ih =>
    rw [Plain.matchOptions, Option.isSome_or, Bool.or_eq_true]
    rcases mem_cons.1 ho with rfl | ho
    · exact .inl h
    · exact .inr (ih ho)

/-- What is found under final captures satisfies the instruction, and no name is bound twice. -/
def SoundFor (tree : Tree) (instr : Instr) : Prop :=
  ∀ (sure possible before : List String) (node : Nat) (bindings : Bindings) (check : Bindings → Bool)
    (found final : Bindings),
    instr.Scoped sure possible → Situated sure possible before instr.reads instr.surelyBinds bindings [] →
      Plain.matchNode tree instr node bindings check = some found → Extends (bindings.add found) final →
        Satisfies tree final instr node found ∧ found.names.Nodup

/-- Something is found wherever the instruction is satisfied. -/
def CompleteFor (tree : Tree) (instr : Instr) : Prop :=
  ∀ (sure possible before : List String) (node : Nat) (bindings final captures : Bindings),
    instr.Scoped sure possible → Situated sure possible before instr.reads instr.surelyBinds bindings [] →
      Satisfies tree final instr node captures → (Plain.matchNode tree instr node bindings fun _ => true).isSome

section

variable {sure possible before : List String} {left : Nat}

open Pattern.Instr (ScopedList)

private theorem divides_of (hi : ∀ item ∈ items, SoundFor tree item) (hs : ScopedList sure possible items)
    (hst : Situated sure possible before (Instr.readsOfAll items) (Instr.surelyBindOfAll items) bindings [])
    (h : Plain.matchItems tree true items siblings bindings check = some (found, left))
    (hf : Extends (bindings.add found) final) :
    Divides tree final items siblings found ∧ found.names.Nodup := by
  induction items generalizing sure possible before siblings bindings found left with
  | nil =>
    rw [Plain.matchItems] at h
    split at h
    · cases h
    next hl =>
      obtain ⟨same, hsa, heq⟩ := Option.map_eq_some_iff.1 h
      obtain ⟨rfl, -⟩ := Plain.eq_of_accepted hsa
      cases heq
      exact ⟨⟨by simpa using hl, rfl⟩, nodup_nil⟩
  | cons item rest ih =>
    obtain ⟨bound, later, others, ht, ho, hfn⟩ := Plain.exists_of_matchItems h
    obtain ⟨hm, hsr⟩ := ht.names (Plain.sound tree item)
    have ha := hst.rest hsr hm
    rw [hfn, Bindings.add_assoc] at hf
    obtain ⟨hd, hds⟩ := ih (forall_mem_cons.1 hi).2 hs.2 ha ho hf
    -- what the item binds comes first, and the rest binds other names
    have hfr : ∀ name ∈ others.names, name ∉ (bindings.add bound).names := fun name hn hmm =>
      ha.fresh hs.2.fresh name hmm (Instr.mayBindOfAll_subset rest ((Plain.matchItems_sound ho).mayBind name hn))
    have hnw : ∀ name ∈ others.names, name ∉ bound.names :=
      fun name hn hmm => hfr name hn (Bindings.mem_names_add.2 (.inr hmm))
    have hap := hfn.trans (Bindings.add_eq_append hnw hds)
    have hnd : bound.names.Nodup → found.names.Nodup := fun hbn => by
      rw [hap, Bindings.names_append]
      exact hbn.append hds fun name hbn hot => hnw name hot hbn
    unfold Divides
    cases ht with
    | run hit taken =>
      have hrn : (runBindings item (siblings.take taken)).names.Nodup := by
        unfold runBindings
        split
        · exact nodup_singleton _
        · exact nodup_nil
      rw [if_pos hit]
      exact ⟨⟨_, _, others, (take_append_drop taken siblings).symm, hd, hap⟩, hnd hrn⟩
    | one hit hsb hbn =>
      have hon := hs.1
      rw [if_neg hit] at hon ⊢
      have hr : item.reads ⊆ Instr.readsOfAll (item :: rest) := subset_append_left _ _
      obtain ⟨hsat, hds⟩ := hi item mem_cons_self _ _ _ _ bindings _ bound final hon
        (hst.part hr (forall_mem_nil _)) hbn (hf.of_add hfr)
      exact ⟨⟨_, later, bound, others, hsb, hsat, hd, hap⟩, hnd hds⟩

private theorem isSome_of_divides (hi : ∀ item ∈ items, CompleteFor tree item) (hs : ScopedList sure possible items)
    (hst : Situated sure possible before (Instr.readsOfAll items) (Instr.surelyBindOfAll items) bindings [])
    (h : Divides tree final items siblings captures) :
    (Plain.matchItems tree true items siblings bindings fun _ => true).isSome := by
  induction items generalizing sure possible before siblings bindings captures with
  | nil =>
    obtain ⟨rfl, -⟩ := h
    rfl
  | cons item rest ih =>
    have hr := (forall_mem_cons.1 hi).2
    unfold Divides at h
    by_cases hit : item.isEllipsis
    · rw [if_pos hit] at h
      obtain ⟨taken, siblings, others, rfl, hd, -⟩ := h
      have ha :
          (Plain.matchItems tree true rest siblings (bindings.add (runBindings item taken)) fun _ => true).isSome :=
        ih hr hs.2 (hst.rest (fun name hn => Plain.mem_names_runBindings hit _ hn)
          fun name => Plain.mem_mayBind_of_runBindings) hd
      -- among the lengths that are tried is that of the run
      rw [Plain.matchItems_ellipsis hit, findSome?_isSome_iff]
      refine ⟨taken.length, ?_, ?_⟩
      · rw [Plain.lengths, if_neg (by simp), mem_range, length_append]
        omega
      · rw [drop_left, take_left, Option.isSome_map]
        exact ha
    · have ho := hs.1
      rw [if_neg hit] at h ho
      obtain ⟨sibling, siblings, bound, others, rfl, hsa, hd, -⟩ := h
      have hrd : item.reads ⊆ Instr.readsOfAll (item :: rest) := subset_append_left _ _
      obtain ⟨first, hf⟩ := Option.isSome_iff_exists.1 (hi item mem_cons_self _ _ _ sibling bindings final
        bound ho (hst.part hrd (forall_mem_nil _)) hsa)
      rw [Plain.matchItems_fixed_cons hit, hf]
      rw [Option.isSome_map]
      exact ih hr hs.2 (hst.rest (Plain.sound tree item _ _ _ _ hf).surelyBinds
        (Plain.sound tree item _ _ _ _ hf).mayBind) hd

end

variable (hb : ∀ id target, target ∈ tree.descendants id ↔ tree.Below id target)

include hb

private theorem mem_targets_iff {target : Nat} :
    target ∈ (node :: tree.descendants node).filter (fun target => !(tree.node target).trivia) ↔
      (target = node ∨ tree.Below node target) ∧ (tree.node target).trivia = false := by
  rw [mem_filter, mem_cons, hb, Bool.not_eq_true']

/-- What is found satisfies an instruction, if that holds of the instructions in it. -/
private theorem soundFor_of (hn : instr.NegatesUnconditionally) (hc : ∀ child ∈ instr.children, SoundFor tree child)
    (hcm : ∀ child ∈ instr.children, child.Unconditional → CompleteFor tree child) : SoundFor tree instr := by
  intro sure possible before node bindings check found final hs hst h hf
  unfold Satisfies
  cases instr with
  | kind | text | regex =>
    rw [Plain.matchNode] at h
    split at h
    next ht =>
      obtain ⟨rfl, -⟩ := Plain.eq_of_accepted h
      exact ⟨⟨by simpa using ht, rfl⟩, nodup_nil⟩
    · cases h
  | wildcard =>
    obtain ⟨rfl, -⟩ := Plain.eq_of_accepted h
    exact ⟨rfl, nodup_nil⟩
  | metavar id name =>
    obtain ⟨rfl, -⟩ := Plain.eq_of_accepted h
    exact ⟨rfl, nodup_singleton _⟩
  | ellipsis | siblings => cases h
  | backref id name =>
    rw [Plain.matchNode] at h
    split at h
    next htx =>
      obtain ⟨rfl, -⟩ := Plain.eq_of_accepted h
      -- the reference is to a name that is bound by then and stays what it is
      have hbn := Bindings.has_iff.2 (hst.known name (mem_singleton_self name) hs)
      obtain ⟨binding, hbi⟩ := Option.isSome_iff_exists.1 hbn
      rw [hbi, Option.getD_some] at htx
      exact ⟨⟨⟨binding, (hf name hbn).trans hbi, eq_of_beq htx⟩, rfl⟩, nodup_nil⟩
    · cases h
  | node id name kindId items =>
    rw [Plain.matchNode] at h
    split at h
    next hk =>
      obtain ⟨⟨same, left⟩, hi, rfl⟩ := Option.map_eq_some_iff.1 h
      obtain ⟨hd, hnd⟩ := divides_of hc hs hst hi hf
      exact ⟨⟨eq_of_beq hk, hd⟩, hnd⟩
    · cases h
  | capture id name inner =>
    obtain ⟨hnw, ho, hs⟩ := hs
    obtain ⟨bound, hbn, rfl⟩ := Option.map_eq_some_iff.1 h
    have hnm : name ∉ bound.names := fun hm => ho ((Plain.sound tree inner _ _ _ _ hbn).mayBind name hm)
    have hpt : bound.put name (.one node) = bound ++ [(name, .one node)] := Bindings.put_of_not_mem hnm
    -- the name is new also where the instruction is matched
    have he : Extends (bindings.add bound) final := by
      rw [hpt, Bindings.add_append] at hf
      refine hf.of_add fun other hot hm => ?_
      rw [mem_singleton.1 hot] at hm
      rcases Bindings.mem_names_add.1 hm with hm | hm
      · exact hnw (hst.possible (hst.bound hm))
      · exact hnm hm
    obtain ⟨hsa, hnd⟩ := hc inner mem_cons_self _ _ _ node bindings _ bound final hs
      (hst.part (List.Subset.refl _) (forall_mem_nil _)) hbn he
    refine ⟨⟨bound, hsa, hpt⟩, ?_⟩
    rw [hpt, Bindings.names_append]
    refine hnd.append (nodup_singleton _) fun other hot hm => ?_
    rw [mem_singleton.1 hm] at hot
    exact hnm hot
  | oneOf id options =>
    obtain ⟨option, hop, hfn⟩ := Plain.exists_of_matchOptions h
    obtain ⟨hsa, hnd⟩ := hc option hop _ _ _ node bindings _ found final (hs.scoped hop)
      (hst.part (Instr.reads_subset_readsOfAll hop) (forall_mem_nil _)) hfn hf
    exact ⟨satisfiesOne_iff.2 ⟨option, hop, hsa⟩, hnd⟩
  | negation id inner =>
    rw [Plain.matchNode] at h
    split at h
    · cases h
    next hnn =>
      obtain ⟨rfl, -⟩ := Plain.eq_of_accepted h
      have hinn : inner.Unconditional := (hn _ (Instr.self_mem_parts _) rfl).child mem_cons_self
      refine ⟨⟨fun below hsa => hnn ?_, rfl⟩, nodup_nil⟩
      exact hcm inner mem_cons_self hinn _ _ _ node bindings final below hs
        (hst.part (List.Subset.refl _) (forall_mem_nil _)) hsa
  | deep id inner =>
    obtain ⟨target, htr, hfn⟩ := exists_of_findSome?_eq_some h
    obtain ⟨hp, htri⟩ := (mem_targets_iff hb).1 htr
    obtain ⟨hsa, hnd⟩ := hc inner mem_cons_self _ _ _ target bindings _ found final hs hst hfn hf
    exact ⟨⟨target, hp, htri, hsa⟩, hnd⟩
  | guarded id inner pred =>
    obtain ⟨hs, hg⟩ := hs
    obtain ⟨hsa, hnd⟩ := hc inner mem_cons_self _ _ _ node bindings _ found final hs
      (hst.part (subset_append_left _ _) (forall_mem_nil _)) h hf
    refine ⟨⟨hsa, ?_⟩, hnd⟩
    -- all names that the guard reads are bound by now
    have htru : pred.isTrue tree (bindings.add found) :=
      (Bool.and_eq_true_iff.1 (Plain.sound tree inner _ _ _ _ h).accepted).1
    have ha : Predicate.Agree pred.references (bindings.add found) final := by
      intro name hnm
      refine (hf name (Bindings.has_iff.2 (Bindings.mem_names_add.2 ?_))).symm
      exact (hg name hnm).imp (hst.known name (mem_append_right _ hnm))
        ((Plain.sound tree inner _ _ _ _ h).surelyBinds name)
    rw [← pred.evaluate_congr ha]
    exact isTrue_iff.1 htru

/-- Something is found wherever an instruction without guards and references is satisfied, if that holds of the
instructions in it. -/
private theorem completeFor_of (hu : instr.Unconditional) (hc : ∀ child ∈ instr.children, CompleteFor tree child)
    (hs : ∀ child ∈ instr.children, SoundFor tree child) : CompleteFor tree instr := by
  intro sure possible before node bindings final captures hsc hst h
  unfold Satisfies at h
  cases instr with
  | kind | text | regex =>
    rw [Plain.matchNode, if_pos (by simpa using h.1)]
    rfl
  | wildcard | metavar => rfl
  | ellipsis | siblings => exact h.elim
  | backref | guarded => cases hu _ (Instr.self_mem_parts _)
  | node id name kindId items =>
    rw [Plain.matchNode, if_pos (by simpa using h.1), Option.isSome_map]
    exact isSome_of_divides hc hsc hst h.2
  | capture id name inner =>
    obtain ⟨below, hsa, -⟩ := h
    rw [Plain.matchNode, Option.isSome_map]
    exact hc inner mem_cons_self _ _ _ node bindings final below hsc.2.2
      (hst.part (List.Subset.refl _) (forall_mem_nil _)) hsa
  | oneOf id options =>
    obtain ⟨option, ho, hsa⟩ := satisfiesOne_iff.1 h
    have hf := hc option ho _ _ _ node bindings final captures (hsc.scoped ho)
      (hst.part (Instr.reads_subset_readsOfAll ho) (forall_mem_nil _)) hsa
    exact Plain.isSome_matchOptions ho hf
  | negation id inner =>
    rw [Plain.matchNode, if_neg]
    · rfl
    · intro hso
      obtain ⟨below, hb⟩ := Option.isSome_iff_exists.1 hso
      have hsa := (hs inner mem_cons_self _ _ _ node bindings _ below _ hsc
        (hst.part (List.Subset.refl _) (forall_mem_nil _)) hb fun _ _ => rfl).1
      have hi := hu.child (mem_singleton_self inner)
      exact h.1 below ((satisfies_congr hi _ final node below).1 hsa)
  | deep id inner =>
    obtain ⟨target, hp, ht, hsa⟩ := h
    rw [Plain.matchNode, findSome?_isSome_iff]
    exact ⟨target, (mem_targets_iff hb).2 ⟨hp, ht⟩,
      hc inner mem_cons_self _ _ _ target bindings final captures hsc hst hsa⟩

/-- What is found satisfies the instruction, and without guards and references something is found wherever the
instruction is satisfied. -/
theorem faithful (instr : Instr) :
    (instr.NegatesUnconditionally → SoundFor tree instr) ∧ (instr.Unconditional → CompleteFor tree instr) := by
  induction instr using Instr.induction with
  | step instr ih =>
    constructor
    · intro hn
      exact soundFor_of hb hn (fun child hc => (ih child hc).1 (hn.child hc)) fun child hc => (ih child hc).2
    · intro hu
      exact completeFor_of hb hu (fun child hc => (ih child hc).2 (hu.child hc))
        fun child hc => (ih child hc).1 (hu.child hc).negatesUnconditionally

omit hb

/-! ## Matches in parsed trees -/

variable {pattern : Pattern}

theorem not_breaks_of_unconditional (h : instr.Unconditional) (breakdown : Breakdown) :
    ¬ Breaks instr tree breakdown := by
  refine not_breaks_of_predicate? (fun part hp => ?_) breakdown
  have hf := h part hp
  cases part with
  | guarded => cases hf
  | siblings id items guard =>
    cases guard with
    | none => rfl
    | some => cases hf
  | _ => rfl

private theorem Plain.exists_atNode_of_mem_attempts (hn : pattern.isSequence = false) {found : Match}
    (h : some found ∈ Plain.attempts pattern tree) : ∃ node, Plain.atNode tree pattern.root node = some found := by
  unfold Plain.attempts at h
  split at h
  next id items guard hr =>
    rw [isSequence, hr] at hn
    cases hn
  · obtain ⟨node, -, hf⟩ := mem_map.1 h
    exact ⟨node, hf⟩

section

variable (hb : ∀ id target, target ∈ tree.descendants id ↔ tree.Below id target)

include hb

private theorem Plain.satisfies_atNode (hs : instr.Scoped [] []) (hn : instr.NegatesUnconditionally) {found : Match}
    (h : Plain.atNode tree instr node = some found) :
    found.anchor = node ∧ Satisfies tree found.captures instr node found.captures := by
  obtain ⟨captures, hc, rfl⟩ := Option.map_eq_some_iff.1 h
  obtain ⟨hst, hnd⟩ := (faithful hb instr).1 hn [] [] [] node [] _ captures _ hs (situated_nil _ _) hc fun _ _ => rfl
  rw [Bindings.add_eq_append (fun _ _ => not_mem_nil) hnd, nil_append] at hst
  exact ⟨rfl, hst⟩

private theorem Plain.isSome_atNode_iff (hs : instr.Scoped [] []) (hu : instr.Unconditional) (final : Bindings) :
    (Plain.atNode tree instr node).isSome ↔ ∃ captures, Satisfies tree final instr node captures := by
  rw [Plain.atNode, Option.isSome_map]
  constructor
  · intro hso
    obtain ⟨captures, hc⟩ := Option.isSome_iff_exists.1 hso
    have hst := ((faithful hb instr).1 hu.negatesUnconditionally [] [] [] node [] _ captures _
      hs (situated_nil _ _) hc fun _ _ => rfl).1
    exact ⟨captures, (satisfies_congr hu _ final node captures).1 hst⟩
  · rintro ⟨captures, hst⟩
    exact (faithful hb instr).2 hu [] [] [] node [] final captures hs (situated_nil _ _) hst

end

/-- Matches of a pattern for nodes in a parsed tree, after any calls. Without guards and references there is a match at
a node if and only if the node satisfies the pattern. Then, and also without negations, every match is one of captures
with which its node satisfies the pattern, where guards and references look at these captures. -/
theorem matches_mean {description : Description} {grammar : Grammar}
    (hbuild : Grammar.build description = .ok grammar) {source : Source}
    (hsource : (∃ bytes, source = .ofBytes bytes) ∨ ∃ text, source = .ofText (Text.ofString text)) {path : String}
    {config : Config} {tree : Tree} (htree : tree = Tree.parse grammar source path config) {given : Given}
    {pattern : Pattern} (hpattern : compileGiven grammar given = .ok pattern)
    (hnode : pattern.isSequence = false) (calls : List Call) :
    (pattern.root.Unconditional → ∀ id node, tree.resolve? id = some node → ∀ final,
      ∃ outcome, (((atNode? pattern tree id).run).run (recordAfter pattern tree calls)).1 = .ok (.ok outcome) ∧
        (outcome.isSome ↔ ∃ captures, Satisfies tree final pattern.root node captures)) ∧
    (pattern.root.Unconditional ∨ (∀ part ∈ pattern.root.parts, part.negates = false) →
      (∀ found ∈ (trace pattern tree (recordAfter pattern tree calls)).found.map (·.1),
        Satisfies tree found.captures pattern.root found.anchor found.captures) ∧
      ∀ id node found, tree.resolve? id = some node →
        (((atNode? pattern tree id).run).run (recordAfter pattern tree calls)).1 = .ok (.ok (some found)) →
          found.anchor = node ∧ Satisfies tree found.captures pattern.root node found.captures) := by
  have hg := (built_of_build hbuild).tabulated
  have hc := Source.coherent_of_read hsource
  obtain ⟨cut, hgr⟩ := grown_parse hg hc path config
  rw [← htree] at hgr
  have hb := hgr.mem_descendants_iff
  have hf := formed_of_compileGiven hpattern
  have hs := scoped_of_isSequence (scopedRoot_of_compileGiven hpattern) hnode
  have hv : (recordAfter pattern tree calls).Valid pattern.root tree := valid_recordAfter hf calls
  have hat : ∀ id node, tree.resolve? id = some node →
      Plain.atNode? pattern tree id = .ok (Plain.atNode tree pattern.root node) := by
    intro id node hid
    rw [Plain.atNode?, hnode, hid]
    rfl
  refine ⟨fun hu id node hid final => ?_, fun hk => ?_⟩
  · refine ⟨Plain.atNode tree pattern.root node, ?_, Plain.isSome_atNode_iff hb hs hu final⟩
    rcases (yields_atNode? hf id _ hv).2 with heq | ⟨breakdown, -, hbr⟩
    · rw [heq, hat id node hid]
    · exact absurd hbr (not_breaks_of_unconditional hu breakdown)
  · have hn : pattern.root.NegatesUnconditionally := by
      rcases hk with hu | hnn
      · exact hu.negatesUnconditionally
      · intro part hp hng
        cases (hnn part hp).symm.trans hng
    refine ⟨fun found hfn => ?_, fun id node found hid hfn => ?_⟩
    · have hm := Plain.mem_of_mem_distinct ((trace_follows hf hv).mem hfn)
      obtain ⟨node, hfn⟩ := Plain.exists_atNode_of_mem_attempts hnode hm
      obtain ⟨ha, hst⟩ := Plain.satisfies_atNode hb hs hn hfn
      rwa [ha]
    · rcases (yields_atNode? hf id _ hv).2 with heq | ⟨breakdown, heq, -⟩
      · rw [hat id node hid] at heq
        exact Plain.satisfies_atNode hb hs hn (Except.ok.inj (Except.ok.inj (heq.symm.trans hfn)))
      · cases heq.symm.trans hfn

/-- The form of a row with a sign in it. -/
def signForm : Sexp :=
  .list [.symbol "S", .symbol "...", .list [.symbol "bind", .symbol "y", .string "+"], .symbol "..."]

def signRoot : Instr := .node 0 "S" 5 [.ellipsis 1, .capture 2 "y" (.text 3 "+"), .ellipsis 4]

/-- The form of a row that ends as it begins. -/
def frameForm : Sexp :=
  .list [.symbol "S", .symbol "$x", .symbol "...", .symbol "$x"]

def frameRoot : Instr := .node 0 "S" 5 [.metavar 1 "x", .ellipsis 2, .backref 3 "x"]

private theorem satisfies_signRoot (g : Grammar) : Satisfies (letterTree g) [] signRoot 1 [("y", .one 5)] := by
  have ht : (letterTree g).text 5 = Text.ofString "+" := by cbv
  have hn : Satisfies (letterTree g) [] (.capture 2 "y" (.text 3 "+")) 5 [("y", .one 5)] := ⟨[], ⟨ht, rfl⟩, rfl⟩
  have he : Divides (letterTree g) [] [.ellipsis 4] [7, 8] [] := ⟨[7, 8], [], [], rfl, ⟨rfl, rfl⟩, rfl⟩
  exact ⟨rfl, [2], [5, 7, 8], [("y", .one 5)], rfl, ⟨5, [7, 8], [("y", .one 5)], [], rfl, hn, he, rfl⟩, rfl⟩

/-- In the row of letters there is a sign, and the last letter is the first. The document is no row. -/
theorem matches_mean_of_letters : ∃ grammar tree sign frame guarded, Grammar.build letters = .ok grammar ∧
    tree = Tree.parse grammar letterSource ∧ compileGiven grammar (.form signForm) = .ok sign ∧
    compileGiven grammar (.form frameForm) = .ok frame ∧
    compileGiven grammar (.text "x: _ where x.text == \"a\"") = .ok guarded ∧
    (((atNode? sign tree 0).run).run (recordAfter sign tree [.run])).1 = .ok (.ok none) ∧
    (∃ found, (((atNode? sign tree 1).run).run (recordAfter sign tree [.run])).1 = .ok (.ok (some found)) ∧
      Satisfies tree found.captures sign.root 1 found.captures) ∧
    (∃ found, (((atNode? frame tree 1).run).run (recordAfter frame tree [.run])).1 = .ok (.ok (some found)) ∧
      Satisfies tree found.captures frame.root 1 found.captures) ∧
    ∀ found ∈ (trace guarded tree (recordAfter guarded tree [])).found.map (·.1),
      letterGuard.evaluate tree found.captures = .ok true := by
  obtain ⟨grammar, hbl, hk, ht⟩ := parse_letters
  have hs : compileGiven grammar (.form signForm) =
      .ok { source := signForm.text, root := signRoot, grammarName := grammar.name } := by
    cases grammar
    cases hk
    rfl
  have hfr : compileGiven grammar (.form frameForm) =
      .ok { source := frameForm.text, root := frameRoot, grammarName := grammar.name } := by
    cases grammar
    cases hk
    rfl
  have hgr := compileGiven_text readShape_letterGuard (checkTop_letterGuard grammar)
  have hso : (∃ bytes, letterSource = .ofBytes bytes) ∨ ∃ text, letterSource = .ofText (Text.ofString text) :=
    .inr ⟨_, rfl⟩
  obtain ⟨tree, htr⟩ : ∃ tree, tree = Tree.parse grammar letterSource := ⟨_, rfl⟩
  have htl : tree = letterTree grammar := htr.trans ht
  have hr : tree.resolve? 0 = some 0 ∧ tree.resolve? 1 = some 1 := by
    rw [htl]
    exact ⟨rfl, rfl⟩
  have hu : signRoot.Unconditional := by
    simp [signRoot, Instr.Unconditional, Instr.parts, Instr.partsOfAll, Instr.looksBack]
  have hsm := matches_mean hbl hso htr hs rfl [.run]
  refine ⟨grammar, tree, _, _, _, hbl, htr, hs, hfr, hgr, ?_, ?_, ?_, fun found hf => ?_⟩
  · obtain ⟨outcome, ho, hi⟩ := hsm.1 hu 0 0 hr.1 []
    have hn : ¬ ∃ captures, Satisfies (letterTree grammar) [] signRoot 0 captures := by
      rintro ⟨captures, hc, -⟩
      cases hc
    rw [htl] at hi
    rw [ho, Option.not_isSome_iff_eq_none.1 (hi.not.2 hn)]
  · obtain ⟨outcome, ho, hi⟩ := hsm.1 hu 1 1 hr.2 []
    rw [htl] at hi
    obtain ⟨found, rfl⟩ := Option.isSome_iff_exists.1 (hi.2 ⟨_, satisfies_signRoot grammar⟩)
    exact ⟨found, ho, ((hsm.2 (.inl hu)).2 1 1 found hr.2 ho).2⟩
  · have hp : ∀ part ∈ frameRoot.parts, part.predicate? = none ∧ part.negates = false := by
      simp [frameRoot, Instr.parts, Instr.partsOfAll, Instr.predicate?, Instr.negates]
    have hfn : Plain.atNode tree frameRoot 1 = some ⟨1, [("x", .one 2)], [1]⟩ := by
      rw [htl]
      cbv
    have hat : Plain.atNode? { source := frameForm.text, root := frameRoot, grammarName := grammar.name } tree 1 =
        .ok (some ⟨1, [("x", .one 2)], [1]⟩) := by
      rw [← hfn, Plain.atNode?, hr.2]
      rfl
    have hfo := formed_of_compileGiven hfr
    have hfm := (matches_mean hbl hso htr hfr rfl [.run]).2 (.inr fun part hm => (hp part hm).2)
    rcases (yields_atNode? hfo 1 _ (valid_recordAfter hfo [.run])).2 with heq | ⟨breakdown, -, hbr⟩
    · rw [hat] at heq
      exact ⟨_, heq, (hfm.2 1 1 _ hr.2 heq).2⟩
    · exact absurd hbr (not_breaks_of_predicate? (fun part hm => (hp part hm).1) breakdown)
  · have hpr : ∀ part ∈ (Instr.guarded 0 (.capture 1 "x" (.wildcard 2)) letterGuard).parts,
        part.negates = false := by
      simp [Instr.parts, Instr.negates]
    exact (((matches_mean hbl hso htr hgr rfl []).2 (.inr hpr)).1 found hf).2

def silent : Description where
  name := "silent"
  productions := [{ name := "S", alternatives := [{ symbols := [] }] }]
  suppression := { directive := "x" }

private theorem exists_blank {g : Grammar} (hbl : Built silent g) :
    ∃ token others, tokenize g (.ofText (Text.ofString " ")) = token :: others ∧
      token.kind = whitespaceKind ∧ token.trivia = true := by
  have hs : g.scanners = [] := (Except.ok.inj hbl.scanners_compiled).symm
  rw [tokenize, hs, piecesFrom, if_pos (by decide)]
  have hbla : (pieceAt [] (Source.ofText (Text.ofString " ")).glyphs 0).kind = whitespaceKind ∧
      (pieceAt [] (Source.ofText (Text.ofString " ")).glyphs 0).trivia = true := by decide +kernel
  exact ⟨_, _, rfl, hbla⟩

theorem exists_blank_leaf {g : Grammar} (hbl : Built silent g) :
    ∃ leaf < (Tree.parse g (.ofText (Text.ofString " ")) defaultPath {}).size,
      (((Tree.parse g (.ofText (Text.ofString " ")) defaultPath {}).node leaf).kind = whitespaceKind ∧
        ((Tree.parse g (.ofText (Text.ofString " ")) defaultPath {}).node leaf).trivia = true) ∧
      ((Tree.parse g (.ofText (Text.ofString " ")) defaultPath {}).node leaf).children = [] := by
  obtain ⟨token, others, ht, hbla⟩ := exists_blank hbl
  obtain ⟨cut, hg⟩ := grown_parse hbl.tabulated (Source.coherent_ofText " ") defaultPath {}
  have htr :
      (Tree.parse g (.ofText (Text.ofString " ")) defaultPath {}).tokens = (token :: others).toArray :=
    ht ▸ (Forest.parse_keepsake g _ {}).tokens_eq
  obtain ⟨leaf, hl, htk⟩ := hg.exists_leaf (show 0 < _ by rw [htr]; exact Nat.succ_pos _)
  refine ⟨leaf, hl, ?_, (hg.leaf_eq htk).2.1⟩
  rw [(hg.leaf_kind htk).1, (hg.leaf_kind htk).2, htr]
  exact hbla

private theorem readShape_anywhere : readShape ">> _" = .ok (.deep .wildcard) := by
  have ht : (match readShape ">> _" with
    | .ok (.deep .wildcard) => true
    | _ => false) = true := by decide +kernel
  split at ht
  next hs => exact hs
  · cases ht

/-- A leaf with a blank satisfies a wildcard, but it is no match of a wildcard that may be anywhere. -/
theorem blank_not_anywhere : ∃ grammar pattern inner, ∃ id : Int, ∃ leaf, Grammar.build silent = .ok grammar ∧
    compileGiven grammar (.text ">> _") = .ok pattern ∧ pattern.root = .deep 0 inner ∧
    (Tree.parse grammar (.ofText (Text.ofString " ")) defaultPath {}).resolve? id = some leaf ∧
    Satisfies (Tree.parse grammar (.ofText (Text.ofString " ")) defaultPath {}) [] inner leaf [] ∧
      (((atNode? pattern (Tree.parse grammar (.ofText (Text.ofString " ")) defaultPath {}) id).run).run {}).1 =
        .ok (.ok none) := by
  have hok : (Grammar.build silent).isOk = true := by decide +kernel
  obtain ⟨grammar, hbl⟩ := exists_eq_ok hok
  have hbu := built_of_build hbl
  have hp := compileGiven_text readShape_anywhere (show checkTop grammar _ = .ok _ from rfl)
  obtain ⟨leaf, hl, ⟨-, ht⟩, hc⟩ := exists_blank_leaf hbu
  obtain ⟨cut, hg⟩ := grown_parse hbu.tabulated (Source.coherent_ofText " ") defaultPath {}
  refine ⟨grammar, _, .wildcard 1, leaf, leaf, hbl, hp, rfl, resolve?_of_lt hl, rfl, ?_⟩
  have hn : Plain.matchNode (Tree.parse grammar (.ofText (Text.ofString " ")) defaultPath {})
      (.deep 0 (.wildcard 1)) leaf [] (fun _ => true) = none := by
    refine findSome?_eq_none_iff.2 fun target htr => ?_
    obtain ⟨rfl | hb, hs⟩ := (mem_targets_iff hg.mem_descendants_iff).1 htr
    · cases ht.symm.trans hs
    · obtain ⟨child, hch, -⟩ := Relation.TransGen.head'_iff.1 hb
      rw [hc] at hch
      cases hch
  have hf : (Instr.deep 0 (.wildcard 1)).Unconditional := by
    simp [Instr.Unconditional, Instr.parts, Instr.looksBack]
  rcases (yields_atNode? (formed_of_compileGiven hp) leaf {} Record.valid_empty).2 with
    heq | ⟨breakdown, -, hbr⟩
  · rw [heq, Plain.atNode?, resolve?_of_lt hl]
    dsimp only
    rw [Plain.atNode, hn]
    rfl
  · exact absurd hbr (not_breaks_of_unconditional hf breakdown)

end Match

end TreeLint
