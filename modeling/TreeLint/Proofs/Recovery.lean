import TreeLint.Proofs.Parsing

/-!
# Recovery

Reading goes from state to state: over the token at hand if an item waits for it, else over a gap to the nearest token
that is waited for. The items that go on over a gap bring back all that was waited for before it, since an item that
does not go on was brought in by others. So each gap is followed by a token that is scanned.

* `State.next?`: one step of reading; `State.read_eq`: reading is to take steps as long as there are any;
* `Revives`: what a column waits for can be recovered from its live items; closing keeps it (`revives_close`);
* `Visits.isSome_scan?_skipTo`: after a gap a token is scanned;
* `recoveries_progress`: the bounds of gaps, their distances, and the end of reading.
-/

namespace TreeLint

open List

namespace Chart

/-! ## The steps of reading -/

/-- The columns before a position, the gaps so far, and the first items at the position. -/
structure State where
  columns : Array Column
  gaps : List Gap
  position : Nat
  kernel : Column

namespace State

def initial (grammar : Grammar) : State :=
  { columns := #[], gaps := [], position := 0, kernel := seed grammar }

def column (grammar : Grammar) (state : State) : Column :=
  close grammar state.columns state.position state.kernel

def scanned (grammar : Grammar) (kinds : Array String) (state : State) : Column :=
  scan grammar (state.column grammar) state.position (kinds.getD state.position "")

/-- The state after the token at hand, if there is one and an item waits for it. -/
def scan? (grammar : Grammar) (kinds : Array String) (state : State) : Option State :=
  if state.position < kinds.size ∧ (state.scanned grammar kinds).items.isEmpty = false then
    some
      { columns := state.columns.push (state.column grammar), gaps := state.gaps, position := state.position + 1,
        kernel := state.scanned grammar kinds }
  else none

/-- The state at a later position, the tokens up to there being skipped. -/
def skipTo (grammar : Grammar) (state : State) (target : Nat) : State :=
  { columns := state.columns.push (state.column grammar) ++ Array.replicate (target - state.position - 1) {},
    gaps := state.gaps ++ [⟨state.position, target⟩], position := target,
    kernel := carry grammar (state.column grammar) state.position }

/-- The nearest later position whose token is waited for in a state. -/
def target? (grammar : Grammar) (kinds : Array String) (bound : Int) (state : State) : Option Nat :=
  resync? kinds (state.column grammar) state.position bound

/-- The next state: after the token at hand, or else after a gap. -/
def next? (grammar : Grammar) (kinds : Array String) (bound : Int) (state : State) : Option State :=
  (state.scan? grammar kinds).or ((state.target? grammar kinds bound).map (state.skipTo grammar))

def chart (grammar : Grammar) (kinds : Array String) (state : State) : Chart :=
  { columns := state.columns.push (state.column grammar), gaps := state.gaps,
    stopped := if state.position < kinds.size then some state.position else none }

def read (grammar : Grammar) (kinds : Array String) (bound : Int) (state : State) : Chart :=
  readFrom grammar kinds bound state.columns state.gaps state.position state.kernel

variable {grammar : Grammar} {kinds : Array String} {bound : Int} {state next : State} {target : Nat}

private theorem target?_eq_none (h : kinds.size ≤ state.position) : state.target? grammar kinds bound = none := by
  have hc : min bound.toNat (kinds.size - 1 - state.position) = 0 := by omega
  rw [target?, resync?, hc]
  rfl

theorem read_eq (grammar : Grammar) (kinds : Array String) (bound : Int) (state : State) :
    state.read grammar kinds bound =
      (state.next? grammar kinds bound).elim (state.chart grammar kinds) (read grammar kinds bound) := by
  rw [read, readFrom, next?, scan?]
  change (if state.position < kinds.size then if (state.scanned grammar kinds).items.isEmpty = true then _ else _
    else _) = _
  by_cases hlt : state.position < kinds.size
  · rw [if_pos hlt]
    by_cases he : (state.scanned grammar kinds).items.isEmpty = true
    · rw [if_pos he, if_neg (by simp [he]), Option.none_or]
      split
      next hn =>
        have hn' : state.target? grammar kinds bound = none := hn
        simp [hn', chart, hlt, column]
      next target hs =>
        have hs' : state.target? grammar kinds bound = some target := hs
        rw [hs']
        rfl
    · rw [if_neg he, if_pos ⟨hlt, by simpa using he⟩]
      rfl
  · rw [if_neg hlt, if_neg (by simp [hlt]), target?_eq_none (by omega)]
    simp [chart, hlt, column]

/-- A state follows either by a token or by a gap. -/
theorem next?_cases (h : state.next? grammar kinds bound = some next) : state.scan? grammar kinds = some next ∨
      state.scan? grammar kinds = none ∧
        ∃ target, state.target? grammar kinds bound = some target ∧ next = state.skipTo grammar target := by
  rcases Option.or_eq_some_iff.1 h with hs | ⟨hn, hsk⟩
  · exact .inl hs
  · obtain ⟨target, ht, heq⟩ := Option.map_eq_some_iff.1 hsk
    exact .inr ⟨hn, target, ht, heq.symm⟩

theorem of_scan? (h : state.scan? grammar kinds = some next) :
    state.position < kinds.size ∧ next.position = state.position + 1 ∧ next.gaps = state.gaps ∧
      next.columns = state.columns.push (state.column grammar) ∧ next.kernel = state.scanned grammar kinds := by
  unfold scan? at h
  split at h
  next hc =>
    cases h
    exact ⟨hc.1, rfl, rfl, rfl, rfl⟩
  · cases h

private theorem isEmpty_of_scan?_eq_none (h : state.scan? grammar kinds = none) (hlt : state.position < kinds.size) :
    (state.scanned grammar kinds).items.isEmpty := by
  unfold scan? at h
  split at h
  · cases h
  next hn => simpa [hlt] using hn

/-- A token that is waited for lies ahead within the bound. -/
private theorem of_target? (h : state.target? grammar kinds bound = some target) :
    state.position < target ∧ (target : Int) ≤ state.position + bound ∧ target < kinds.size ∧
      waitsFor (state.column grammar) (kinds.getD target "") := by
  unfold target? resync? at h
  have hm := mem_of_find?_eq_some h
  rw [mem_range'_1] at hm
  exact ⟨by omega, by omega, by omega, by simpa using find?_some h⟩

/-- If no target is found, no token within the bound is waited for. -/
private theorem waitsFor_eq_false (h : state.target? grammar kinds bound = none) (hlt : state.position < target)
    (hb : (target : Int) ≤ state.position + bound) (hs : target < kinds.size) :
    waitsFor (state.column grammar) (kinds.getD target "") = false := by
  have hm : target ∈ List.range' (state.position + 1) (min bound.toNat (kinds.size - 1 - state.position)) := by
    rw [mem_range'_1]
    omega
  simpa using find?_eq_none.1 h target hm

private theorem position_lt_of_next? (h : state.next? grammar kinds bound = some next) :
    state.position < next.position := by
  rcases next?_cases h with hs | ⟨-, target, ht, rfl⟩
  · have := (of_scan? hs).2.1
    omega
  · exact (of_target? ht).1

end State

/-- The states that reading goes through. -/
def Visits (grammar : Grammar) (kinds : Array String) (bound : Int) : State → Prop :=
  Relation.ReflTransGen (fun state next => state.next? grammar kinds bound = some next) (.initial grammar)

namespace Visits

variable {grammar : Grammar} {kinds : Array String} {bound : Int} {state next : State}

theorem step (h : Visits grammar kinds bound state) (hn : state.next? grammar kinds bound = some next) :
    Visits grammar kinds bound next :=
  h.tail hn

theorem read_eq (h : Visits grammar kinds bound state) :
    state.read grammar kinds bound = Chart.read grammar kinds bound := by
  induction h with
  | refl => rfl
  | @tail state _ _ hn ih => rw [← ih, State.read_eq grammar kinds bound state, hn, Option.elim_some]

theorem reaches (h : Visits grammar kinds bound state) :
    Reaches grammar kinds bound state.columns state.gaps state.position state.kernel := by
  induction h with
  | refl => exact .seed
  | @tail state next _ hn ih =>
    rcases State.next?_cases hn with hs | ⟨hnn, target, ht, rfl⟩
    · obtain ⟨hlt, hp, hg, hc, hk⟩ := State.of_scan? hs
      rw [hp, hg, hc, hk]
      exact ih.scan hlt
    · obtain ⟨hlt, -, hsz, -⟩ := State.of_target? ht
      have hb : state.position < kinds.size := by omega
      exact ih.skip hb (State.isEmpty_of_scan?_eq_none hnn hb) ht

theorem exists_last (h : Visits grammar kinds bound state) (hg : grammar.Tabulated) :
    ∃ last, Visits grammar kinds bound last ∧ last.next? grammar kinds bound = none := by
  induction hl : kinds.size - state.position using Nat.strongRecOn generalizing state with
  | ind left ih =>
    cases hn : state.next? grammar kinds bound with
    | none => exact ⟨state, h, hn⟩
    | some next =>
      have hle := ((h.step hn).reaches.progress hg).le_size
      have hlt := State.position_lt_of_next? hn
      exact ih _ (by omega) (h.step hn) rfl

end Visits

/-! ## What is waited for after a gap -/

variable {grammar : Grammar} {earlier : Array Column} {kinds : Array String} {bound : Int} {position : Nat}
  {kernel : Column} {item : Item}

/-- A closed column that holds the live items of a column waits for all that the column waits for. -/
def Revives (grammar : Grammar) (column : Column) : Prop :=
  ∀ (earlier : Array Column) (target : Nat) (other : Column), other.Closed grammar earlier target →
    (∀ item ∈ column.items, isLive grammar item → item ∈ other.items) →
      ∀ item ∈ column.items, ∀ symbol, grammar.next? item = some symbol →
        ∃ waiting ∈ other.items, grammar.next? waiting = some symbol

private theorem isLive_of_dot_ne {symbol : Grammar.FlatSymbol} (hn : grammar.next? item = some symbol)
    (hd : item.dot ≠ 0) :
    isLive grammar item := by
  simp [isLive, hn, hd]

/-- The live items bring back the others, because these were brought in by items that wait for them. -/
theorem Revives.addAll {column : Column} (h : Revives grammar column) (hc : column.Coherent grammar)
    (hi : item ∈ column.items) :
    Revives grammar (column.addAll grammar (consequences grammar earlier position item)) := by
  intro earlier' target other hcl hl found hf symbol hs
  have hold := h earlier' target other hcl fun item hi =>
    hl item ((Column.mem_items_addAll_iff hc).2 (.inl hi))
  have ha : found.dot ≠ 0 → ∃ waiting ∈ other.items, grammar.next? waiting = some symbol := fun hd =>
    ⟨found, hl found hf (isLive_of_dot_ne hs hd), hs⟩
  rcases (Column.mem_items_addAll_iff hc).1 hf with hf | ⟨link, hst⟩
  · exact hold found hf symbol hs
  · rcases mem_consequences_iff.1 hst with ⟨-, -, parent, -, heq⟩ | ⟨name, hn, ⟨alt, hof, heq⟩ | ⟨-, heq⟩⟩
    · cases heq
      exact ha (Nat.succ_ne_zero _)
    · -- what brought the item in is waited for after the gap too
      cases heq
      obtain ⟨waiting, hw, hsa⟩ := hold item hi _ hn
      have hsta := hcl waiting hw (⟨alt.id, 0, target⟩, none)
        (mem_consequences_iff.2 (.inr ⟨name, hsa, .inl ⟨alt, hof, rfl⟩⟩))
      exact ⟨_, hsta.1, hs⟩
    · cases heq
      exact ha (Nat.succ_ne_zero _)

theorem revives_close (hg : grammar.Tabulated) (he : ∀ start < position, (earlier.getD start {}).Sound grammar start)
    (hk : kernel.Sound grammar position)
    (hl : ∀ item ∈ kernel.items, (grammar.next? item).isSome → isLive grammar item) :
    Revives grammar (close grammar earlier position kernel) := by
  have hc : (close grammar earlier position kernel).Sound grammar position ∧
      Revives grammar (close grammar earlier position kernel) := by
    refine close_induction (motive := fun column => column.Sound grammar position ∧ Revives grammar column)
      (fun column item hcl hi => ⟨hcl.1.addAll_consequences hg he hi, hcl.2.addAll hcl.1.coherent hi⟩) ⟨hk, ?_⟩
    intro _ _ _ _ hh item hi symbol hs
    exact ⟨item, hh item hi (hl item hi (by rw [hs]; rfl)), hs⟩
  exact hc.2

private theorem Reaches.isLive_kernel {columns : Array Column} {gaps : List Gap}
    (h : Reaches grammar kinds bound columns gaps position kernel) (hg : grammar.Tabulated)
    (hi : item ∈ kernel.items) (hn : (grammar.next? item).isSome) : isLive grammar item := by
  cases h with
  | seed =>
    rcases (Column.mem_items_addAll_iff (Column.coherent_empty grammar)).1 hi with hi | ⟨link, hs⟩
    · exact absurd hi (Array.not_mem_empty _)
    · obtain ⟨alt, hof, heq⟩ := mem_map.1 hs
      obtain ⟨hm, hl⟩ := Grammar.mem_alternativesOf_iff.1 hof
      cases heq
      have hst : grammar.lhsOf ⟨alt.id, 0, 0⟩ = grammar.start :=
        (Grammar.lhsOf_eq (hg.getElem?_id hm)).trans hl
      simp [isLive, hn, hst]
  | scan hb =>
    obtain ⟨before, -, -, rfl⟩ := (mem_scan_items_iff ((hb.progress hg).close_sound hg).coherent).1 hi
    obtain ⟨symbol, hsy⟩ := Option.isSome_iff_exists.1 hn
    exact isLive_of_dot_ne hsy (Nat.succ_ne_zero _)
  | skip =>
    rcases (Column.mem_items_addAll_iff (Column.coherent_empty grammar)).1 hi with hi | ⟨link, hs⟩
    · exact absurd hi (Array.not_mem_empty _)
    · obtain ⟨same, hsa, heq⟩ := mem_map.1 hs
      cases heq
      exact (mem_filter.1 hsa).2

namespace Visits

variable {state next : State} {target : Nat}

/-- After a gap to a token that was waited for, that token is scanned. -/
theorem isSome_scan?_skipTo (h : Visits grammar kinds bound state) (hg : grammar.Tabulated)
    (ht : state.target? grammar kinds bound = some target) :
    ((state.skipTo grammar target).scan? grammar kinds).isSome := by
  obtain ⟨hlt, -, hs, hw⟩ := State.of_target? ht
  have hp := h.reaches.progress hg
  have hsn := hp.close_sound hg
  obtain ⟨item, hi, hn⟩ := hsn.coherent.contains_waits_iff.1 hw
  -- the columns before the target are in order, and so are the items that go on
  have hc : ∀ start < target, ((state.skipTo grammar target).columns.getD start {}).Sound grammar start := by
    intro start _
    have hsa := (hp.close_sane hg).sound start
    rwa [← columnAt_append_replicate _ (target - state.position - 1)] at hsa
  have hcr : ∀ {found : Item}, found ∈ (state.skipTo grammar target).kernel.items ↔
      found ∈ (state.column grammar).items ∧ isLive grammar found := by
    intro found
    simp [State.skipTo, carry, Column.mem_items_addAll_iff (Column.coherent_empty grammar)]
  have hk : (state.skipTo grammar target).kernel.Sound grammar target :=
    ⟨(Column.coherent_empty grammar).addAll _, fun found hf =>
      (hsn.fits found (hcr.1 hf).1).mono (Nat.le_of_lt hlt)⟩
  have hcl : ((state.skipTo grammar target).column grammar).Closed grammar _ target :=
    closed_close hg hc hk
  have hgr := grows_close hg hc hk
  have hr := revives_close hg hp.earlier_sound hp.kernel_sound fun found hf =>
    h.reaches.isLive_kernel hg hf
  obtain ⟨waiting, hwt, hsam⟩ := hr _ target _ hcl (fun found hf hl => hgr.items (hcr.2 ⟨hf, hl⟩)) item hi _ hn
  have hsc : waiting.advance ∈ ((state.skipTo grammar target).scanned grammar kinds).items :=
    (mem_scan_items_iff (hk.close hg hc).coherent).2 ⟨waiting, hwt, hsam, rfl⟩
  rw [State.scan?, if_pos, Option.isSome_some]
  refine ⟨hs, Bool.eq_false_iff.2 fun he => ?_⟩
  rw [Array.isEmpty_iff.1 he] at hsc
  exact Array.not_mem_empty _ hsc

/-- Some item waits for the token at hand wherever reading goes on after a gap. -/
private theorem isSome_scan?_next (h : Visits grammar kinds bound state) (hg : grammar.Tabulated)
    (hs : state.scan? grammar kinds = none) (hn : state.next? grammar kinds bound = some next) :
    (next.scan? grammar kinds).isSome := by
  rcases State.next?_cases hn with hso | ⟨-, target, ht, rfl⟩
  · cases hs.symm.trans hso
  · exact h.isSome_scan?_skipTo hg ht

end Visits

/-! ## Gaps -/

/-- The gaps of a state lie apart and within the bound, and no gap follows the last one at once. -/
structure Spaced (grammar : Grammar) (kinds : Array String) (bound : Int) (state : State) : Prop where
  apart : state.gaps.Pairwise fun gap later => gap.stop < later.start
  within : ∀ gap ∈ state.gaps, gap.start < gap.stop ∧ (gap.stop : Int) ≤ gap.start + bound ∧ gap.stop < kinds.size
  passed : ∀ gap ∈ state.gaps,
    gap.stop < state.position ∨ gap.stop = state.position ∧ (state.scan? grammar kinds).isSome

theorem Visits.spaced {state : State} (h : Visits grammar kinds bound state) (hg : grammar.Tabulated) :
    Spaced grammar kinds bound state := by
  induction h with
  | refl => exact ⟨.nil, forall_mem_nil _, forall_mem_nil _⟩
  | @tail state next hv hn ih =>
    obtain ⟨ha, hw, hp⟩ := ih
    rcases State.next?_cases hn with hs | ⟨hnn, target, ht, rfl⟩
    · obtain ⟨-, hpo, hgp, -⟩ := State.of_scan? hs
      rw [← hgp] at ha hw hp
      refine ⟨ha, hw, fun gap hga => .inl ?_⟩
      rcases hp gap hga with hlt | ⟨heq, -⟩ <;> omega
    · obtain ⟨hlt, hb, hsz, -⟩ := State.of_target? ht
      -- nothing is scanned here, so all gaps end before
      have hbf : ∀ gap ∈ state.gaps, gap.stop < state.position := by
        intro gap hga
        rcases hp gap hga with hlt | ⟨-, hso⟩
        · exact hlt
        · rw [hnn] at hso
          cases hso
      refine ⟨pairwise_append.2 ⟨ha, pairwise_singleton _ _, fun gap hga later hl => ?_⟩,
        fun gap hga => ?_, fun gap hga => ?_⟩
      · rw [mem_singleton.1 hl]
        exact hbf gap hga
      · rcases mem_append.1 hga with hga | hga
        · exact hw gap hga
        · rw [mem_singleton.1 hga]
          exact ⟨hlt, hb, hsz⟩
      · rcases mem_append.1 hga with hga | hga
        · exact .inl (Nat.lt_trans (hbf gap hga) hlt)
        · rw [mem_singleton.1 hga]
          exact .inr ⟨rfl, Visits.isSome_scan?_skipTo hv hg ht⟩

end Chart

namespace Forest

open Chart (State Visits)

variable {description : Grammar.Description} {grammar : Grammar}

/-- Parsing tokens goes from state to state until there is no next one. -/
theorem exists_last_parse (hg : grammar.Tabulated) (tokens : List Token) (cfg : Config) :
    ∃ last, Visits grammar (meaningfulKinds tokens) cfg.recoverySkipBound last ∧
      last.next? grammar (meaningfulKinds tokens) cfg.recoverySkipBound = none ∧
      (parse grammar tokens cfg).chart = last.chart grammar (meaningfulKinds tokens) := by
  have hi : Visits grammar (meaningfulKinds tokens) cfg.recoverySkipBound (.initial grammar) := .refl
  obtain ⟨last, hl, he⟩ := hi.exists_last hg
  refine ⟨last, hl, he, ?_⟩
  rw [(parse_keepsake grammar tokens cfg).chart_eq, ← hl.read_eq, State.read_eq, he, Option.elim_none]

/-- In every state that reading goes through, a token to which the reading skips lies ahead within the bound and is then
scanned; if there is none, no token within the bound is waited for. Every step goes ahead, and the one after a gap scans
a token. So the reading of tokens comes to an end, and its gaps lie apart. -/
theorem recoveries_progress (hbuild : Grammar.build description = .ok grammar) :
    (∀ kinds bound state, Visits grammar kinds bound state →
      (∀ target, state.target? grammar kinds bound = some target →
        state.position < target ∧ (target : Int) ≤ state.position + bound ∧ target < kinds.size ∧
          ((state.skipTo grammar target).scan? grammar kinds).isSome) ∧
      (state.target? grammar kinds bound = none → ∀ target, state.position < target →
        (target : Int) ≤ state.position + bound → target < kinds.size →
          ∀ item ∈ (state.column grammar).items, grammar.next? item ≠ some (.terminal (kinds.getD target ""))) ∧
      ∀ next, state.next? grammar kinds bound = some next →
        state.position < next.position ∧ next.position ≤ kinds.size ∧
          (state.scan? grammar kinds = none → (next.scan? grammar kinds).isSome)) ∧
    ∀ tokens config, (∃ last, Visits grammar (meaningfulKinds tokens) config.recoverySkipBound last ∧
        last.next? grammar (meaningfulKinds tokens) config.recoverySkipBound = none ∧
        (parse grammar tokens config).chart = last.chart grammar (meaningfulKinds tokens)) ∧
      ((parse grammar tokens config).chart.gaps.Pairwise fun gap later => gap.stop < later.start) ∧
      ∀ gap ∈ (parse grammar tokens config).chart.gaps, gap.start < gap.stop ∧
        (gap.stop : Int) ≤ gap.start + config.recoverySkipBound ∧ gap.stop < (meaningfulKinds tokens).size := by
  have hg := (Grammar.built_of_build hbuild).tabulated
  refine ⟨fun kinds bound state hv => ⟨fun target ht => ?_, ?_, fun next hn => ?_⟩, fun tokens config => ?_⟩
  · obtain ⟨hlt, hb, hs, -⟩ := Chart.State.of_target? ht
    exact ⟨hlt, hb, hs, hv.isSome_scan?_skipTo hg ht⟩
  · intro hnn target hlt hb hs item hi hn
    have hw := Chart.State.waitsFor_eq_false hnn hlt hb hs
    have hc := ((hv.reaches.progress hg).close_sound hg).coherent
    rw [Chart.waitsFor, Bool.eq_false_iff] at hw
    exact hw (hc.contains_waits_iff.2 ⟨item, hi, hn⟩)
  · exact ⟨Chart.State.position_lt_of_next? hn, ((hv.step hn).reaches.progress hg).le_size,
      fun hsc => hv.isSome_scan?_next hg hsc hn⟩
  · obtain ⟨last, hl, he, hch⟩ := exists_last_parse hg tokens config
    have hsp := hl.spaced hg
    refine ⟨⟨last, hl, he, hch⟩, ?_⟩
    rw [hch]
    exact ⟨hsp.apart, hsp.within⟩

/-- An unknown token in front of one that the cyclic grammar waits for. -/
theorem recoveries_progress_of_loop : ∃ grammar, Grammar.build Grammar.loop = .ok grammar ∧
    (State.initial grammar).target? grammar #["b", "a"] 8 = some 1 ∧
      (((State.initial grammar).skipTo grammar 1).scan? grammar #["b", "a"]).isSome := by
  obtain ⟨grammar, hb⟩ := Grammar.exists_build_loop
  have hbl := Grammar.built_of_build hb
  have hg := hbl.tabulated
  obtain ⟨one, hm, hl, hs⟩ := hbl.exists_alternative_loop
  have hv : Visits grammar #["b", "a"] 8 (.initial grammar) := .refl
  have hp := hv.reaches.progress hg
  have hsd := hp.seeded one (Grammar.mem_alternativesOf_iff.2 ⟨hm, hl⟩)
  have hi := (hp.close_grows hg).items hsd
  have hn : grammar.next? ⟨one.id, 0, 0⟩ = some (.terminal "a") :=
    Grammar.next?_eq_some_iff.2 ⟨one, hg.getElem?_id hm, by rw [hs]; rfl⟩
  have hw : Chart.waitsFor ((State.initial grammar).column grammar) "a" :=
    (hp.close_sound hg).coherent.contains_waits_iff.2 ⟨_, hi, hn⟩
  have ht : (State.initial grammar).target? grammar #["b", "a"] 8 = some 1 := by
    change List.find? (fun target => Chart.waitsFor _ (#["b", "a"].getD target "")) [1] = some 1
    exact find?_cons_of_pos hw
  exact ⟨grammar, hb, ht, (((recoveries_progress hb).1 _ _ _ hv).1 1 ht).2.2.2⟩

end Forest

end TreeLint
