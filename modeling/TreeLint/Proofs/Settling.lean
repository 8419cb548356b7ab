import TreeLint.Proofs.ChartReading

/-!
# Settling spots

Settling a spot goes depth first through the spots on which it depends. With enough fuel this is a relation between what
is known before and after (`Settles`), and its induction principle (`Settles.induction`) is what later proofs use.

* `settles_solve`: the fuel of `solve` is enough, because there are only so many spots;
* `Settles.extends`: what is known of a spot does not change once it is there;
* `Settles.settled`: nothing is left open that was not open before.
-/

namespace TreeLint

open List

namespace Forest

open Chart (Item Link Column)

variable {g : Grammar} {chart : Chart} {spot other : Spot} {memo middle after : Memo}
  {step : Spot → Memo → Memo → Prop} {spots : List Spot}

/-! ## Ways to a derivation -/

/-- The ways to a derivation of a spot; each is a list of spots that must all have one. -/
def options (grammar : Grammar) (chart : Chart) : Spot → List (List Spot)
  | .phrase name start stop => (completeItems grammar chart name start stop).map fun item => [.item stop item]
  | .item position item => (linksOf chart position item).map (linkSpots position item)

theorem dependencies_eq_flatten (g : Grammar) (chart : Chart) (spot : Spot) :
    dependencies g chart spot = (options g chart spot).flatten := by
  cases spot with
  | item pos item => exact flatMap_def
  | phrase name start stop =>
    simp only [dependencies, options]
    induction completeItems g chart name start stop with
    | nil => rfl
    | cons item items ih => simp [ih]

/-! ## The relation -/

/-- What is found out about a spot once those on which it depends are settled. -/
def verdict (grammar : Grammar) (chart : Chart) (memo : Memo) (spot : Spot) : Verdict :=
  match choose grammar chart memo spot with
  | some choice => .chosen choice
  | none => .dead

/-- Spots dealt with one after the other, the last of the list first. -/
inductive Trail (step : Spot → Memo → Memo → Prop) : List Spot → Memo → Memo → Prop
  | nil {memo : Memo} : Trail step [] memo memo
  | cons {spot : Spot} {spots : List Spot} {memo middle after : Memo} : Trail step spots memo middle →
      step spot middle after → Trail step (spot :: spots) memo after

/-- Settling a spot leads from what is known before to what is known after. -/
inductive Settles (grammar : Grammar) (chart : Chart) : Spot → Memo → Memo → Prop
  | known {spot : Spot} {memo : Memo} : memo.contains spot → Settles grammar chart spot memo memo
  | fresh {spot : Spot} {memo after : Memo} : ¬ memo.contains spot →
      Trail (Settles grammar chart) (dependencies grammar chart spot) (memo.insert spot .unsettled) after →
        Settles grammar chart spot memo (after.insert spot (verdict grammar chart after spot))

theorem Trail.imp {step' : Spot → Memo → Memo → Prop} (hi : ∀ {spot memo after}, step spot memo after →
    step' spot memo after) (h : Trail step spots memo after) : Trail step' spots memo after := by
  induction h with
  | nil => exact .nil
  | cons _ hs ih => exact .cons ih (hi hs)

theorem Trail.split {first rest : List Spot} (h : Trail step (first ++ rest) memo after) :
    ∃ middle, Trail step rest memo middle ∧ Trail step first middle after := by
  induction first generalizing after with
  | nil => exact ⟨after, h, .nil⟩
  | cons spot first ih =>
    cases h with
    | cons ht hs =>
      obtain ⟨middle, hr, hf⟩ := ih ht
      exact ⟨middle, hr, .cons hf hs⟩

/-- What holds for a known spot, and for a new one if it holds for those on which that depends, holds for all. -/
theorem Settles.induction {motive : Spot → Memo → Memo → Prop}
    (known : ∀ {spot memo}, memo.contains spot → motive spot memo memo)
    (fresh : ∀ {spot memo after}, ¬ memo.contains spot →
      Trail (fun next before after => Settles g chart next before after ∧ motive next before after)
        (dependencies g chart spot) (memo.insert spot .unsettled) after →
          motive spot memo (after.insert spot (verdict g chart after spot)))
    (h : Settles g chart spot memo after) : motive spot memo after :=
  @Settles.rec g chart (fun spot memo after _ => motive spot memo after)
    (fun spots memo after _ => Trail (fun next before after => Settles g chart next before after ∧
      motive next before after) spots memo after)
    known (fun hn _ ih => fresh hn ih) .nil (fun _ hs ih ihstep => .cons ih ⟨hs, ihstep⟩) spot memo after h

/-! ## What settling keeps -/

/-- What is known of a spot stays as it is. -/
def Extends (memo after : Memo) : Prop :=
  ∀ spot, memo.contains spot → after[spot]? = memo[spot]?

theorem contains_eq_of_getElem?_eq (h : after[spot]? = memo[spot]?) : after.contains spot = memo.contains spot := by
  rw [Std.HashMap.contains_eq_isSome_getElem?, Std.HashMap.contains_eq_isSome_getElem?, h]

theorem Extends.contains (h : Extends memo after) (hs : memo.contains spot) : after.contains spot := by
  rwa [contains_eq_of_getElem?_eq (h spot hs)]

theorem Extends.trans (h : Extends memo middle) (h' : Extends middle after) : Extends memo after := by
  intro spot hs
  rw [h' spot (h.contains hs), h spot hs]

private theorem extends_insert {verdict : Verdict} (hn : ¬ memo.contains spot) :
    Extends memo (memo.insert spot verdict) := by
  intro other ho
  have hne : spot ≠ other := fun h => hn (h ▸ ho)
  rw [Std.HashMap.getElem?_insert, if_neg (by simpa using hne)]

theorem Extends.choice? (h : Extends memo after) {choice : Choice} (hc : choice? memo spot = some choice) :
    Forest.choice? after spot = some choice := by
  have hcn : memo.contains spot := by
    rw [Std.HashMap.contains_eq_isSome_getElem?]
    unfold Forest.choice? at hc
    split at hc <;> simp_all
  unfold Forest.choice?
  rwa [h spot hcn]

theorem Extends.isSome_choice? (h : Extends memo after) (hc : (Forest.choice? memo spot).isSome) :
    (Forest.choice? after spot).isSome := by
  obtain ⟨choice, hc⟩ := Option.isSome_iff_exists.1 hc
  rw [h.choice? hc]
  rfl

/-- What every step of a trail keeps, the trail keeps. -/
theorem Trail.invariant (h : Trail step spots memo after) (inv : Memo → Prop)
    (hs : ∀ {spot memo after}, spot ∈ spots → step spot memo after → inv memo → inv after) (hm : inv memo) :
    inv after := by
  induction h with
  | nil => exact hm
  | cons _ hl ih =>
    exact hs mem_cons_self hl (ih (fun hmm => hs (mem_cons_of_mem _ hmm)) hm)

theorem Trail.extends (h : Trail step spots memo after)
    (hs : ∀ {spot memo after}, step spot memo after → Extends memo after) : Extends memo after :=
  h.invariant (Extends memo) (fun _ hl hm => hm.trans (hs hl)) fun _ _ => rfl

/-- Between opening a spot and its verdict, other spots are left as they were. -/
theorem getElem?_insert_of_ne {verdict : Verdict} (hne : other ≠ spot) :
    (memo.insert spot verdict)[other]? = memo[other]? := by
  rw [Std.HashMap.getElem?_insert, if_neg (by simpa using hne.symm)]

/-- Settling a spot changes nothing that was settled before. -/
theorem Settles.extends (h : Settles g chart spot memo after) : Extends memo after := by
  refine Settles.induction (motive := fun _ memo after => Extends memo after) (fun _ _ _ => rfl) ?_ h
  intro spot memo after hn ht other ho
  have hne : other ≠ spot := fun h => hn (h ▸ ho)
  have ht' := ht.extends (fun h => h.2) other (by rw [Std.HashMap.contains_insert, ho, Bool.or_true])
  rw [getElem?_insert_of_ne hne, ht', getElem?_insert_of_ne hne]

theorem Settles.contains (h : Settles g chart spot memo after) : after.contains spot := by
  cases h with
  | known hk => exact hk
  | fresh => exact Std.HashMap.contains_insert_self

theorem Trail.contains (h : Trail (Settles g chart) spots memo after) (hs : spot ∈ spots) :
    after.contains spot := by
  induction h with
  | nil => cases hs
  | cons _ hl ih =>
    rcases mem_cons.1 hs with rfl | hs
    · exact hl.contains
    · exact hl.extends.contains (ih hs)

theorem Settles.settled (h : Settles g chart spot memo after) (hm : memo[other]? ≠ some .unsettled) :
    after[other]? ≠ some .unsettled := by
  revert hm
  refine Settles.induction (motive := fun _ memo after => memo[other]? ≠ some .unsettled →
    after[other]? ≠ some .unsettled) (fun _ => id) ?_ h
  intro spot memo after _ ht ho
  by_cases hs : other = spot
  · subst hs
    rw [Std.HashMap.getElem?_insert_self, verdict]
    split <;> simp
  · rw [getElem?_insert_of_ne hs]
    refine ht.invariant (fun memo => memo[other]? ≠ some .unsettled) (fun _ hst => hst.2) ?_
    rwa [getElem?_insert_of_ne hs]

/-! ## Enough fuel -/

def phraseOn? (position : Nat) : Link → Option Spot
  | .phrase start name => some (.phrase name start position)
  | _ => none

/-- The spots of a column: its items and the phrases on their links. -/
def columnSpots (column : Column) (position : Nat) : List Spot :=
  column.items.toList.flatMap fun item =>
    .item position item :: (column.linksOf item).filterMap (phraseOn? position)

/-- The spots of a chart, with one spot in front. -/
def allSpots (chart : Chart) (root : Spot) : List Spot :=
  root :: chart.columns.toList.zipIdx.flatMap fun entry => columnSpots entry.1 entry.2

private theorem length_columnSpots_le (column : Column) (pos total : Nat) :
    total + (columnSpots column pos).length ≤
      column.items.foldl (fun total item => total + (column.linksOf item).length + 1) total := by
  rw [← Array.foldl_toList, columnSpots]
  induction column.items.toList generalizing total with
  | nil => simp
  | cons item items ih =>
    have hl := length_filterMap_le (phraseOn? pos) (column.linksOf item)
    have := ih (total + (column.linksOf item).length + 1)
    simp only [flatMap_cons, length_append, length_cons, foldl_cons] at this ⊢
    omega

private theorem length_allSpots_le (chart : Chart) (root : Spot) : (allSpots chart root).length ≤ spotBound chart := by
  have hf : ∀ (columns : List Column) (start total : Nat),
      total + ((columns.zipIdx start).flatMap fun entry => columnSpots entry.1 entry.2).length ≤
        columns.foldl (fun total column =>
          column.items.foldl (fun total item => total + (column.linksOf item).length + 1) total) total := by
    intro columns
    induction columns with
    | nil => simp
    | cons column columns ih =>
      intro start total
      have hfr := length_columnSpots_le column start total
      have hr := ih (start + 1) (column.items.foldl (fun total item => total + (column.linksOf item).length + 1) total)
      simp only [zipIdx_cons, flatMap_cons, length_append, foldl_cons] at hr ⊢
      omega
  have := hf chart.columns.toList 0 1
  rw [allSpots, length_cons, spotBound, ← Array.foldl_toList]
  omega

private theorem mem_allSpots_of_mem_columnSpots {pos : Nat} (root : Spot)
    (h : spot ∈ columnSpots (chart.column pos) pos) : spot ∈ allSpots chart root := by
  refine mem_cons_of_mem _ (mem_flatMap.2 ⟨(chart.column pos, pos), ?_, h⟩)
  rw [mem_zipIdx_iff_getElem?, Array.getElem?_toList]
  by_cases hlt : pos < chart.columns.size
  · simp [Chart.column, hlt]
  · rw [Chart.column, Array.getD_eq_getD_getElem?, Array.getElem?_eq_none (by omega), Option.getD_none] at h
    simp [columnSpots] at h

private theorem item_mem_allSpots {pos : Nat} {item : Item} (root : Spot) (h : item ∈ (chart.column pos).items) :
    .item pos item ∈ allSpots chart root :=
  mem_allSpots_of_mem_columnSpots root (mem_flatMap.2 ⟨item, Array.mem_toList_iff.2 h, mem_cons_self⟩)

variable {kinds : Array String} {gaps : List Chart.Gap}

theorem mem_allSpots_of_mem_dependencies (h : Chart.Sane g kinds chart.column gaps) (root : Spot)
    (hs : other ∈ dependencies g chart spot) : other ∈ allSpots chart root := by
  cases spot with
  | phrase name start stop =>
    obtain ⟨item, hi, rfl⟩ := mem_map.1 hs
    exact item_mem_allSpots root ((h.sound stop).coherent.has_iff.1 (mem_filter.1 hi).2)
  | item pos item =>
    obtain ⟨link, hl, ho⟩ := mem_flatMap.1 hs
    have hi := (h.sound pos).coherent.mem_of_mem_linksOf hl
    have hp : ∀ found, phraseOn? pos link = some found → found ∈ allSpots chart root := fun found hf =>
      mem_allSpots_of_mem_columnSpots root (mem_flatMap.2 ⟨item, Array.mem_toList_iff.2 hi,
        mem_cons_of_mem _ (mem_filterMap.2 ⟨link, hl, hf⟩)⟩)
    cases h.reached hl with
    | token hb | empty hb =>
      rw [linkSpots, mem_singleton, Item.retreat_advance] at ho
      exact ho ▸ item_mem_allSpots root hb
    | phrase hb =>
      rw [linkSpots, mem_cons, mem_singleton, Item.retreat_advance] at ho
      rcases ho with rfl | rfl
      · exact item_mem_allSpots root hb
      · exact hp _ rfl
    | skip hb =>
      rw [linkSpots, mem_singleton] at ho
      exact ho ▸ item_mem_allSpots root hb

def unknown (spots : List Spot) (memo : Memo) : Nat :=
  spots.countP fun spot => !memo.contains spot

private theorem Extends.unknown_le (h : Extends memo after) (spots : List Spot) :
    unknown spots after ≤ unknown spots memo := by
  refine countP_mono_left fun spot _ hs => ?_
  by_contra hc
  rw [Bool.not_eq_true, Bool.not_eq_false'] at hc
  rw [h.contains hc] at hs
  cases hs

private theorem unknown_insert_lt (hs : spot ∈ spots) (hn : ¬ memo.contains spot) (found : Verdict) :
    unknown spots (memo.insert spot found) < unknown spots memo := by
  induction spots with
  | nil => cases hs
  | cons first spots ih =>
    have hle : unknown spots (memo.insert spot found) ≤ unknown spots memo := (extends_insert hn).unknown_le spots
    unfold unknown at ih hle ⊢
    rw [countP_cons, countP_cons]
    rcases mem_cons.1 hs with rfl | hs
    · rw [if_neg (by rw [Std.HashMap.contains_insert_self]; decide), if_pos (by simpa using hn)]
      omega
    · have := ih hs
      have hf : memo.contains first → (memo.insert spot found).contains first := by
        rw [Std.HashMap.contains_insert, Bool.or_eq_true]
        exact .inr
      split <;> split <;> first | omega | simp_all

private theorem settles_settle (spots : List Spot)
    (hc : ∀ spot ∈ spots, ∀ next ∈ dependencies g chart spot, next ∈ spots) {fuel : Nat}
    (hs : spot ∈ spots) (hf : unknown spots memo < fuel) :
    Settles g chart spot memo (settle g chart fuel spot memo) := by
  induction fuel generalizing spot memo with
  | zero => omega
  | succ fuel ih =>
    by_cases hk : memo.contains spot
    · simp only [settle, hk, if_true]
      exact .known hk
    · have hl := unknown_insert_lt hs hk .unsettled
      -- each dependency in turn finds enough fuel left
      have ht : ∀ ahead ⊆ spots, Trail (Settles g chart) ahead (memo.insert spot .unsettled)
          (ahead.foldr (fun next memo => settle g chart fuel next memo) (memo.insert spot .unsettled)) := by
        intro ahead ha
        induction ahead with
        | nil => exact .nil
        | cons next ahead ihahead =>
          rw [cons_subset] at ha
          have hr := ihahead ha.2
          have hle := (hr.extends fun h => h.extends).unknown_le spots
          exact .cons hr (ih ha.1 (by omega))
      have hst := Settles.fresh hk (ht _ (hc spot hs))
      have hv : settle g chart (fuel + 1) spot memo =
          ((dependencies g chart spot).foldr (fun next memo => settle g chart fuel next memo)
            (memo.insert spot .unsettled)).insert spot (verdict g chart ((dependencies g chart spot).foldr
              (fun next memo => settle g chart fuel next memo) (memo.insert spot .unsettled)) spot) := by
        rw [settle, if_neg hk, verdict]
        dsimp only
        cases choose g chart _ spot <;> rfl
      rw [hv]
      exact hst

/-- Solving a phrase is settling it from nothing. -/
theorem settles_solve (h : Chart.Sane g kinds chart.column gaps) (name : String) (start stop : Nat) :
    Settles g chart (.phrase name start stop) ∅ (solve g chart name start stop) := by
  refine settles_settle (allSpots chart (.phrase name start stop))
    (fun spot _ next hn => mem_allSpots_of_mem_dependencies h _ hn) mem_cons_self ?_
  have hle : unknown (allSpots chart (.phrase name start stop)) ∅ ≤ _ := countP_le_length
  have := length_allSpots_le chart (.phrase name start stop)
  omega

end Forest

end TreeLint
