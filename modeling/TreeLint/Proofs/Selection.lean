import TreeLint.Proofs.Settling

/-!
# A derivation is always selected

A spot that is being settled counts as having no derivation, and whoever meets it meanwhile keeps that answer. So spots
of a cyclic grammar may be marked dead although they have derivations. The spot that was asked for first is never one of
them (`isSome_choice?_solve`): what it depends on lies inside its own range, and

* spots over nothing form chains, so none of them dies (`Settles.clear`);
* spots over a shorter range are settled while nothing of that range is known, so they are alive by induction;
* if the spots over the full range all stayed without a derivation (`Stuck`), each of their derivations would pass
  through another one of them, and then none of them could have a finite derivation (`Stuck.not_contains`).
-/

namespace TreeLint

open List

namespace Forest

open Chart (Item Link Column Sane Founded Reached)

/-! ## Ranges -/

def Spot.start : Spot → Nat
  | .item _ entry => entry.origin
  | .phrase _ start _ => start

def Spot.stop : Spot → Nat
  | .item position _ => position
  | .phrase _ _ stop => stop

/-- A spot that may be met: an item of the chart, or a phrase over something that has a derivation. -/
def Proper (grammar : Grammar) (chart : Chart) (spot : Spot) : Prop :=
  Founded grammar chart.column spot ∧ match spot with
    | .item position item => item ∈ (chart.column position).items
    | .phrase _ start stop => start < stop

variable {g : Grammar} {chart : Chart} {kinds : Array String} {gaps : List Chart.Gap} {spot other : Spot}
  {memo middle after : Memo} {position : Nat} {item : Item} {spots option : List Spot} {link : Link} {found : Verdict}

/-- No spot ends before it starts. -/
theorem Proper.start_le_stop (hs : Proper g chart spot) (h : Sane g kinds chart.column gaps) :
    spot.start ≤ spot.stop := by
  cases spot with
  | item position item => exact ((h.sound position).fits item hs.2).choose_spec.2.2
  | phrase name start stop => exact Nat.le_of_lt hs.2

private theorem proper_item (h : Sane g kinds chart.column gaps) (hi : item ∈ (chart.column position).items) :
    Proper g chart (.item position item) :=
  ⟨h.founded hi, hi⟩

/-- What one way to a derivation of a spot consists of: proper spots inside its range, one after the other. -/
structure Tiles (grammar : Grammar) (chart : Chart) (start stop : Nat) (spots : List Spot) : Prop where
  proper : ∀ spot ∈ spots, Proper grammar chart spot
  inside : ∀ spot ∈ spots, start ≤ spot.start ∧ spot.stop ≤ stop
  apart : spots.Pairwise fun first second => first.stop ≤ second.start

private theorem tiles_singleton {start stop : Nat} (hp : Proper g chart spot) (hs : start ≤ spot.start)
    (he : spot.stop ≤ stop) :
    Tiles g chart start stop [spot] :=
  ⟨forall_mem_singleton.2 hp, forall_mem_singleton.2 ⟨hs, he⟩, pairwise_singleton ..⟩

private theorem tiles_linkSpots (h : Sane g kinds chart.column gaps) (hg : g.Tabulated)
    (hl : link ∈ (chart.column position).linksOf item) :
    Tiles g chart item.origin position (linkSpots position item link) := by
  have hf := (h.reached hl).founded hg h
  cases h.reached hl with
  | token hi =>
    rw [linkSpots, Item.retreat_advance] at hf ⊢
    exact tiles_singleton ⟨hf _ mem_cons_self, hi⟩ (Nat.le_refl _) (Nat.le_succ _)
  | phrase hi _ hlt =>
    rw [linkSpots, Item.retreat_advance] at hf ⊢
    rw [forall_mem_cons, forall_mem_singleton] at hf
    refine ⟨?_, ?_, ?_⟩
    · rw [forall_mem_cons, forall_mem_singleton]
      exact ⟨⟨hf.1, hi⟩, hf.2, hlt⟩
    · rw [forall_mem_cons, forall_mem_singleton]
      exact ⟨⟨Nat.le_refl _, Nat.le_of_lt hlt⟩, ((h.sound _).fits _ hi).choose_spec.2.2, Nat.le_refl _⟩
    · rw [pairwise_pair]
      exact Nat.le_refl _
  | empty hi =>
    rw [linkSpots, Item.retreat_advance] at hf ⊢
    exact tiles_singleton ⟨hf _ mem_cons_self, hi⟩ (Nat.le_refl _) (Nat.le_refl _)
  | skip hi _ _ hlt =>
    rw [linkSpots] at hf ⊢
    exact tiles_singleton ⟨hf _ mem_cons_self, hi⟩ (Nat.le_refl _) (Nat.le_of_lt hlt)

/-- The complete items of a phrase are those of the alternatives of its name. -/
theorem mem_completeItems_iff (h : Sane g kinds chart.column gaps) {name : String} {start stop : Nat} :
    item ∈ completeItems g chart name start stop ↔
      ∃ alt ∈ g.alternatives.toList, alt.lhs = name ∧
        item = ⟨alt.id, alt.symbols.length, start⟩ ∧ item ∈ (chart.column stop).items := by
  rw [completeItems, mem_filter, (h.sound stop).coherent.has_iff, mem_map]
  constructor
  · rintro ⟨⟨alt, ha, rfl⟩, hi⟩
    obtain ⟨hm, hl⟩ := Grammar.mem_alternativesOf_iff.1 ha
    exact ⟨alt, hm, hl, rfl, hi⟩
  · rintro ⟨alt, hm, hl, rfl, hi⟩
    exact ⟨⟨alt, Grammar.mem_alternativesOf_iff.2 ⟨hm, hl⟩, rfl⟩, hi⟩

/-- Every way to a derivation of a spot tiles its range. -/
private theorem tiles_of_mem_options (h : Sane g kinds chart.column gaps) (hg : g.Tabulated)
    (ho : option ∈ options g chart spot) : Tiles g chart spot.start spot.stop option := by
  cases spot with
  | item position item =>
    obtain ⟨link, hl, rfl⟩ := mem_map.1 ho
    exact tiles_linkSpots h hg hl
  | phrase name start stop =>
    obtain ⟨item, hi, rfl⟩ := mem_map.1 ho
    obtain ⟨alt, _, _, rfl, hc⟩ := (mem_completeItems_iff h).1 hi
    refine ⟨fun spot hs => ?_, fun spot hs => ?_, pairwise_singleton ..⟩
    all_goals
      rw [mem_singleton] at hs
      subst hs
    · exact proper_item h hc
    · exact ⟨Nat.le_refl _, Nat.le_refl _⟩

theorem mem_options_of_mem_linksOf (hl : link ∈ (chart.column position).linksOf item) :
    linkSpots position item link ∈ options g chart (.item position item) :=
  mem_map_of_mem hl

/-- What a spot depends on lies inside of it. -/
theorem proper_of_mem_dependencies (h : Sane g kinds chart.column gaps) (hg : g.Tabulated)
    (ho : other ∈ dependencies g chart spot) :
    Proper g chart other ∧ spot.start ≤ other.start ∧ other.stop ≤ spot.stop := by
  rw [dependencies_eq_flatten, mem_flatten] at ho
  obtain ⟨option, hop, hm⟩ := ho
  have ht := tiles_of_mem_options h hg hop
  exact ⟨ht.proper other hm, ht.inside other hm⟩

/-! ## Choices -/

theorem isSome_choice?_iff : (choice? memo spot).isSome ↔
    memo.contains spot ∧ memo[spot]? ≠ some .dead ∧ memo[spot]? ≠ some .unsettled := by
  rw [Std.HashMap.contains_eq_isSome_getElem?, choice?]
  rcases memo[spot]? with _ | _ | _ | choice <;> simp

theorem preferred?_cons (assoc : Grammar.Assoc) (first : Choice × Nat) (rest : List (Choice × Nat)) :
    ∃ best ∈ first :: rest, preferred? assoc (first :: rest) = some best.1 := by
  rw [preferred?, foldl_cons]
  induction rest generalizing first with
  | nil => exact ⟨first, mem_cons_self, rfl⟩
  | cons next rest ih =>
    rw [foldl_cons]
    obtain ⟨best, hb, heq⟩ := ih (if isPreferred assoc next first then next else first)
    refine ⟨best, ?_, heq⟩
    rcases mem_cons.1 hb with rfl | hb
    · split <;> simp
    · exact mem_cons_of_mem _ (mem_cons_of_mem _ hb)

/-- A link can be taken once there is a choice for each of its spots. -/
theorem isSome_throughLink_iff : (throughLink g memo position item link).isSome ↔
    ∀ spot ∈ linkSpots position item link, (choice? memo spot).isSome := by
  cases link with
  | token start | empty name | skip start =>
    rw [linkSpots, forall_mem_singleton, throughLink]
    cases choice? memo _ <;> simp
  | phrase start name =>
    rw [linkSpots, forall_mem_cons, forall_mem_singleton, throughLink]
    cases choice? memo _ with
    | none => simp
    | some before => cases choice? memo _ <;> simp

/-- One option with a choice for all its members is enough for a choice. -/
theorem isSome_choose (ho : option ∈ options g chart spot)
    (ha : ∀ member ∈ option, (choice? memo member).isSome) : (choose g chart memo spot).isSome := by
  cases spot with
  | phrase name start stop =>
    obtain ⟨item, hi, rfl⟩ := mem_map.1 ho
    rw [choose, findSome?_isSome_iff]
    exact ⟨item, hi, ha _ mem_cons_self⟩
  | item position item =>
    obtain ⟨link, hl, rfl⟩ := mem_map.1 ho
    have ht : (throughLink g memo position item link).isSome := isSome_throughLink_iff.2 ha
    obtain ⟨choice, hc⟩ := Option.isSome_iff_exists.1 ht
    have hne : (linksOf chart position item).isEmpty = false :=
      isEmpty_eq_false_iff.2 (ne_nil_of_mem hl)
    have hm : (choice, split position link) ∈ (linksOf chart position item).filterMap fun link =>
        (throughLink g memo position item link).map fun choice => (choice, split position link) :=
      mem_filterMap.2 ⟨link, hl, by rw [hc]; rfl⟩
    rw [choose, chooseItem]
    simp only [hne, Bool.false_eq_true, if_false]
    cases hls : (linksOf chart position item).filterMap fun link =>
        (throughLink g memo position item link).map fun choice => (choice, split position link) with
    | nil => rw [hls] at hm; cases hm
    | cons first rest =>
      obtain ⟨best, _, heq⟩ := preferred?_cons (g.alternatives.getD item.alternative default).assoc first rest
      rw [heq]
      rfl

theorem isSome_choose_of_dot_eq_zero (hl : linksOf chart position item = []) (hd : item.dot = 0) :
    (choose g chart memo (.item position item)).isSome := by
  simp [choose, chooseItem, hl, hd]

/-- What is chosen for a spot is what is looked up there afterwards. -/
theorem choice?_insert_verdict :
    choice? (memo.insert spot (verdict g chart memo spot)) spot = choose g chart memo spot := by
  rw [choice?, Std.HashMap.getElem?_insert_self, verdict]
  cases choose g chart memo spot <;> rfl

/-! ## What settling touches -/

/-- A proper spot lies inside the range of another one. -/
def Inside (grammar : Grammar) (chart : Chart) (spot other : Spot) : Prop :=
  Proper grammar chart other ∧ spot.start ≤ other.start ∧ other.stop ≤ spot.stop

theorem Trail.inside {step : Spot → Memo → Memo → Prop} (h : Trail step spots memo after)
    (hs : ∀ {spot memo after}, spot ∈ spots → step spot memo after → ∀ other, after.contains other →
      memo.contains other ∨ Inside g chart spot other) (ho : after.contains other) :
    memo.contains other ∨ ∃ spot ∈ spots, Inside g chart spot other := by
  induction h with
  | nil => exact .inl ho
  | @cons spot spots memo middle after _ hl ih =>
    rcases hs mem_cons_self hl other ho with hm | hi
    · rcases ih (fun hmm => hs (mem_cons_of_mem _ hmm)) hm with hb | ⟨spot, hsp, hi⟩
      · exact .inl hb
      · exact .inr ⟨spot, mem_cons_of_mem _ hsp, hi⟩
    · exact .inr ⟨spot, mem_cons_self, hi⟩

/-- Settling a spot settles nothing outside of it. -/
theorem Settles.inside (hs : Settles g chart spot memo after) (h : Sane g kinds chart.column gaps)
    (hg : g.Tabulated) (hsp : Proper g chart spot) (other : Spot) (ho : after.contains other) :
    memo.contains other ∨ Inside g chart spot other := by
  revert hsp other
  refine Settles.induction (motive := fun spot memo after => Proper g chart spot →
    ∀ other, after.contains other → memo.contains other ∨ Inside g chart spot other) ?_ ?_ hs
  · intro spot memo _ _ other ho
    exact .inl ho
  · intro spot memo after _ ht hsp other ho
    by_cases hne : other = spot
    · subst hne
      exact .inr ⟨hsp, Nat.le_refl _, Nat.le_refl _⟩
    · have hw : ∀ {next}, next ∈ dependencies g chart spot → Proper g chart next ∧
          spot.start ≤ next.start ∧ next.stop ≤ spot.stop := fun hn => proper_of_mem_dependencies h hg hn
      rw [contains_eq_of_getElem?_eq (getElem?_insert_of_ne hne)] at ho
      rcases ht.inside (fun hn hst => hst.2 (hw hn).1) ho with hb | ⟨next, hn, hi⟩
      · rw [contains_eq_of_getElem?_eq (getElem?_insert_of_ne hne)] at hb
        exact .inl hb
      · obtain ⟨hp, hsta, hsto⟩ := hi
        have := hw hn
        exact .inr ⟨hp, by omega, by omega⟩

/-! ## Spots over nothing -/

/-- What is known of the spots over nothing is a derivation. -/
def Clear (memo : Memo) : Prop :=
  ∀ spot : Spot, spot.start = spot.stop → memo[spot]? ≠ some .dead ∧ memo[spot]? ≠ some .unsettled

theorem Clear.isSome_choice? (h : Clear memo) (hs : spot.start = spot.stop) (hk : memo.contains spot) :
    (choice? memo spot).isSome :=
  isSome_choice?_iff.2 ⟨hk, h spot hs⟩

/-- A verdict on a spot over something says nothing of those over nothing. -/
theorem Clear.insert (h : Clear memo) (hs : spot.start ≠ spot.stop) : Clear (memo.insert spot found) := by
  intro other ho
  have hne : other ≠ spot := by
    rintro rfl
    exact hs ho
  rw [getElem?_insert_of_ne hne]
  exact h other ho

/-- An item over nothing is reached only from the same item with one symbol less. -/
theorem linkSpots_of_origin_eq (h : Sane g kinds chart.column gaps)
    (hl : link ∈ (chart.column position).linksOf item) (ho : item.origin = position) :
    linkSpots position item link = [.item position item.retreat] ∧ 0 < item.dot := by
  cases h.reached hl with
  | token hi | phrase hi _ hlt =>
    have := ((h.sound _).fits _ hi).choose_spec.2.2
    simp only [Item.advance] at ho
    omega
  | empty => exact ⟨rfl, Nat.succ_pos _⟩
  | skip hi _ _ hlt =>
    have := ((h.sound _).fits _ hi).choose_spec.2.2
    omega

/-- No spot over nothing is known to have no derivation. -/
private def NoneDead (memo : Memo) : Prop :=
  ∀ spot : Spot, spot.start = spot.stop → memo[spot]? ≠ some .dead

/-- Of an item, none with fewer than so many symbols recognized is open. -/
private def Shut (position : Nat) (item : Item) (bound : Nat) (memo : Memo) : Prop :=
  ∀ dot < bound, memo[Spot.item position { item with dot }]? ≠ some .unsettled

private theorem Shut.settles {bound : Nat} (h : Shut position item bound memo)
    (hs : Settles g chart spot memo after) : Shut position item bound after :=
  fun dot hd => hs.settled (h dot hd)

private theorem before_of_mem_dependencies (h : Sane g kinds chart.column gaps) (hg : g.Tabulated)
    (ho : item.origin = position) (hot : other ∈ dependencies g chart (.item position item)) :
    other = .item position item.retreat ∧ 0 < item.dot ∧ item.retreat ∈ (chart.column position).items := by
  have hp := (proper_of_mem_dependencies h hg hot).1
  obtain ⟨link, hl, hm⟩ := mem_flatMap.1 hot
  obtain ⟨heq, hpo⟩ := linkSpots_of_origin_eq h hl ho
  rw [heq, mem_singleton] at hm
  subst hm
  exact ⟨rfl, hpo, hp.2⟩

/-- An item whose dependencies all have a choice has one. -/
theorem isSome_choose_of_dependencies (h : Sane g kinds chart.column gaps)
    (hi : item ∈ (chart.column position).items)
    (hb : ∀ next ∈ dependencies g chart (.item position item), (choice? memo next).isSome) :
    (choose g chart memo (.item position item)).isSome := by
  cases hl : linksOf chart position item with
  | nil =>
    refine isSome_choose_of_dot_eq_zero hl ?_
    cases h.founded hi with
    | start _ hd => exact hd
    | link hln => rw [show (chart.column position).linksOf item = [] from hl] at hln; cases hln
  | cons link links =>
    have hln : link ∈ linksOf chart position item := by rw [hl]; exact mem_cons_self
    exact isSome_choose (mem_options_of_mem_linksOf hln) fun next hn =>
      hb next (mem_flatMap.2 ⟨link, hln, hn⟩)

/-- An item over nothing does not die while only items with more symbols recognized are open. -/
private theorem Settles.noneDead (hs : Settles g chart spot memo after)
    (h : Sane g kinds chart.column gaps) (hg : g.Tabulated) : ∀ position item,
      spot = .item position item → item ∈ (chart.column position).items → item.origin = position →
        NoneDead memo → Shut position item (item.dot + 1) memo → NoneDead after := by
  refine Settles.induction (motive := fun spot memo after => ∀ position item, spot = .item position item →
    item ∈ (chart.column position).items → item.origin = position → NoneDead memo →
      Shut position item (item.dot + 1) memo → NoneDead after) ?_ ?_ hs
  · intro spot memo _ position item _ _ _ hd _
    exact hd
  · rintro spot memo after - ht position item rfl hi ho hd hsh
    -- what comes before an item over nothing has its dot further left, so it is not open yet
    have hk : NoneDead after ∧ Shut position item item.dot after := by
      refine ht.invariant (fun memo => NoneDead memo ∧ Shut position item item.dot memo) ?_ ⟨?_, ?_⟩
      · rintro next before final hn ⟨hst, hste⟩ ⟨hb, hc⟩
        obtain ⟨rfl, hp, hm⟩ := before_of_mem_dependencies h hg ho hn
        refine ⟨hste position item.retreat rfl hm ho hb fun dot hdt => hc dot ?_, hc.settles hst⟩
        simp only [Item.retreat] at hdt
        omega
      · intro other hot
        by_cases hne : other = .item position item
        · rw [hne, Std.HashMap.getElem?_insert_self]
          simp
        · rw [getElem?_insert_of_ne hne]
          exact hd other hot
      · intro dot hdt
        rw [getElem?_insert_of_ne fun heq => ?_]
        · exact hsh dot (by omega)
        · injection heq with _ hi
          rw [← hi] at hdt
          exact absurd hdt (Nat.lt_irrefl dot)
    intro other hot
    by_cases hne : other = .item position item
    · subst hne
      have hch : (choose g chart after (.item position item)).isSome := by
        refine isSome_choose_of_dependencies h hi fun next hn => isSome_choice?_iff.2 ?_
        obtain ⟨rfl, hp, -⟩ := before_of_mem_dependencies h hg ho hn
        exact ⟨(ht.imp And.left).contains hn, hk.1 _ ho, hk.2 _ (Nat.sub_one_lt_of_lt hp)⟩
      rw [← choice?_insert_verdict] at hch
      exact (isSome_choice?_iff.1 hch).2.1
    · rw [getElem?_insert_of_ne hne]
      exact hk.1 other hot

private theorem Settles.clear_of_start_eq (hs : Settles g chart spot memo after)
    (h : Sane g kinds chart.column gaps) (hg : g.Tabulated) (hsp : Proper g chart spot)
    (he : spot.start = spot.stop) (hm : Clear memo) : Clear after := by
  intro other ho
  refine ⟨?_, hs.settled (hm other ho).2⟩
  cases spot with
  | phrase name start stop => exact absurd he (Nat.ne_of_lt hsp.2)
  | item position item =>
    exact hs.noneDead h hg position item rfl hsp.2 he (fun other ho => (hm other ho).1)
      (fun dot _ => (hm (.item position { item with dot }) he).2) other ho

/-- Settling a spot leaves no spot over nothing without a derivation. -/
theorem Settles.clear (hs : Settles g chart spot memo after) (h : Sane g kinds chart.column gaps)
    (hg : g.Tabulated) (hsp : Proper g chart spot) (hm : Clear memo) : Clear after := by
  revert hsp hm
  refine Settles.induction (motive := fun spot memo after => Proper g chart spot → Clear memo → Clear after)
    (fun _ _ => id) ?_ hs
  intro spot memo after hnw ht hsp hm
  by_cases he : spot.start = spot.stop
  · exact (Settles.fresh hnw (ht.imp And.left)).clear_of_start_eq h hg hsp he hm
  · refine Clear.insert (ht.invariant Clear (fun hn hst => ?_) (hm.insert he)) he
    exact hst.2 (proper_of_mem_dependencies h hg hn).1

/-! ## Ranges in which nothing has a derivation -/

def Spans (start stop : Nat) (spot : Spot) : Prop :=
  spot.start = start ∧ spot.stop = stop

/-- Nothing is known of the spots over something inside a range. -/
def Fresh (start stop : Nat) (memo : Memo) : Prop :=
  ∀ spot : Spot, memo.contains spot → start ≤ spot.start → spot.start < spot.stop → ¬ spot.stop ≤ stop

/-- Inside a range, only spots over all of it are known, none has a derivation, and where that is final, each way to
one leads through another of them. -/
structure Stuck (grammar : Grammar) (chart : Chart) (start stop : Nat) (memo : Memo) : Prop where
  lt : start < stop
  clear : Clear memo
  quiet : ∀ spot : Spot, memo.contains spot → start ≤ spot.start → spot.start < spot.stop → spot.stop ≤ stop →
    Spans start stop spot ∧ choice? memo spot = none
  closed : ∀ spot : Spot, Spans start stop spot → memo[spot]? = some .dead → ∀ option ∈ options grammar chart spot,
    ∃ member ∈ option, Spans start stop member ∧ memo.contains member

variable {start stop : Nat}

private theorem contains_of_eq_some (h : memo[spot]? = some found) : memo.contains spot := by
  rw [Std.HashMap.contains_eq_isSome_getElem?, h]
  rfl

/-- A range of which nothing is known is stuck: settling starts from there. -/
theorem Fresh.stuck (h : Fresh start stop memo) (hc : Clear memo) (hlt : start < stop) :
    Stuck g chart start stop memo where
  lt := hlt
  clear := hc
  quiet spot hk hs hsp hst := absurd hst (h spot hk hs hsp)
  closed spot hspa hd := by
    obtain ⟨rfl, rfl⟩ := hspa
    exact absurd (Nat.le_refl _) (h spot (contains_of_eq_some hd) (Nat.le_refl _) hlt)

/-- Settling a spot over nothing changes nothing of that. -/
private theorem Stuck.settles_empty (hst : Stuck g chart start stop memo)
    (hs : Settles g chart spot memo after) (h : Sane g kinds chart.column gaps) (hg : g.Tabulated)
    (hsp : Proper g chart spot) (he : spot.start = spot.stop) : Stuck g chart start stop after := by
  -- spots over something are known now only if they were known before
  have hold : ∀ other : Spot, after.contains other → other.start < other.stop →
      memo.contains other ∧ after[other]? = memo[other]? := by
    intro other ho hlt
    rcases hs.inside h hg hsp other ho with hk | ⟨_, hsta, hsto⟩
    · exact ⟨hk, hs.extends other hk⟩
    · omega
  refine ⟨hst.lt, hs.clear h hg hsp hst.clear, fun other ho hsta hlt hsto => ?_, fun other hspa hd option hop => ?_⟩
  · obtain ⟨hk, heq⟩ := hold other ho hlt
    rw [choice?, heq]
    exact hst.quiet other hk hsta hlt hsto
  · have hlt : other.start < other.stop := by
      rw [hspa.1, hspa.2]
      exact hst.lt
    rw [(hold other (contains_of_eq_some hd) hlt).2] at hd
    obtain ⟨member, hm, hspn, hk⟩ := hst.closed other hspa hd option hop
    exact ⟨member, hm, hspn, hs.extends.contains hk⟩

/-- A range stays stuck when one more of its spots gets no derivation, for now or for good. -/
theorem Stuck.insert (hs : Stuck g chart start stop memo) (hsp : Spans start stop spot)
    (hf : found = .unsettled ∨ found = .dead ∧ ∀ option ∈ options g chart spot,
      ∃ member ∈ option, Spans start stop member ∧ memo.contains member) :
    Stuck g chart start stop (memo.insert spot found) := by
  have hm : ∀ {other : Spot}, memo.contains other → (memo.insert spot found).contains other := by
    intro other ho
    rw [Std.HashMap.contains_insert, ho, Bool.or_true]
  refine ⟨hs.lt, hs.clear.insert ?_, fun other ho hst hlt hsto => ?_, fun other ho hd option hop => ?_⟩
  · rw [hsp.1, hsp.2]
    exact Nat.ne_of_lt hs.lt
  · by_cases hne : other = spot
    · subst hne
      refine ⟨hsp, ?_⟩
      rw [choice?, Std.HashMap.getElem?_insert_self]
      rcases hf with rfl | ⟨rfl, -⟩ <;> rfl
    · rw [choice?, getElem?_insert_of_ne hne]
      rw [contains_eq_of_getElem?_eq (getElem?_insert_of_ne hne)] at ho
      exact hs.quiet other ho hst hlt hsto
  · by_cases hne : other = spot
    · subst hne
      rw [Std.HashMap.getElem?_insert_self] at hd
      cases hd
      rcases hf with hf | ⟨-, hw⟩
      · cases hf
      · obtain ⟨member, hmm, hspa, hk⟩ := hw option hop
        exact ⟨member, hmm, hspa, hm hk⟩
    · rw [getElem?_insert_of_ne hne] at hd
      obtain ⟨member, hmm, hspa, hk⟩ := hs.closed other ho hd option hop
      exact ⟨member, hmm, hspa, hm hk⟩

/-- Once all of its spots are settled, a stuck range has no spot that has a derivation. -/
theorem Stuck.not_contains (hs : Stuck g chart start stop memo) (h : Sane g kinds chart.column gaps)
    (hst : ∀ other : Spot, Spans start stop other → memo[other]? ≠ some .unsettled)
    (hf : Founded g chart.column spot) (hsp : Spans start stop spot) : ¬ memo.contains spot := by
  intro hk
  -- a known spot of the range is dead
  have hd : ∀ other : Spot, Spans start stop other → memo.contains other → memo[other]? = some .dead := by
    intro other ho hc
    have hlt := hs.lt
    have ⟨hsta, hsto⟩ := ho
    have hn := (hs.quiet other hc (Nat.le_of_eq hsta.symm) (by omega) (Nat.le_of_eq hsto)).2
    by_contra hne
    have hso := isSome_choice?_iff.2 ⟨hc, hne, hst other ho⟩
    rw [hn] at hso
    cases hso
  induction hf with
  | start hi _ hori =>
    have hlt := hs.lt
    rw [← hsp.1, ← hsp.2] at hlt
    exact absurd hori (Nat.ne_of_lt hlt)
  | link hl _ ih =>
    obtain ⟨member, hm, hspa, hc⟩ :=
      hs.closed _ hsp (hd _ hsp hk) _ (mem_options_of_mem_linksOf hl)
    exact ih member hm hspa hc
  | @phrase first last alt hmm hi _ ih =>
    have hop : [Spot.item last ⟨alt.id, alt.symbols.length, first⟩] ∈
        options g chart (.phrase alt.lhs first last) :=
      mem_map_of_mem ((mem_completeItems_iff h).2 ⟨alt, hmm, rfl, rfl, hi⟩)
    obtain ⟨member, hm, hspa, hc⟩ := hs.closed _ hsp (hd _ hsp hk) _ hop
    rw [mem_singleton] at hm
    subst hm
    exact ih hspa hc

/-! ## Settling the spots of a range -/

/-- A spot of a range of which nothing is known gets a derivation. -/
def Alive (grammar : Grammar) (chart : Chart) (start stop : Nat) : Prop :=
  ∀ (spot : Spot) (memo after : Memo), Spans start stop spot → Proper grammar chart spot → Fresh start stop memo →
    Clear memo → Settles grammar chart spot memo after → (choice? after spot).isSome

variable (h : Sane g kinds chart.column gaps) (hg : g.Tabulated)

include h hg

theorem Trail.clear (ht : Trail (Settles g chart) spots memo after) (hsp : ∀ spot ∈ spots, Proper g chart spot)
    (hm : Clear memo) : Clear after :=
  ht.invariant Clear (fun hmm hs => hs.clear h hg (hsp _ hmm)) hm

/-- Spots one after the other all get derivations, if nothing is known of their ranges. -/
theorem Trail.isSome_choice? (ht : Trail (Settles g chart) spots memo after) (htl : Tiles g chart start stop spots)
    (ha : ∀ spot ∈ spots, spot.start < spot.stop → Alive g chart spot.start spot.stop)
    (hf : ∀ spot ∈ spots, Fresh spot.start spot.stop memo) (hc : Clear memo) :
    ∀ spot ∈ spots, (choice? after spot).isSome := by
  induction ht with
  | nil => exact forall_mem_nil _
  | @cons spot rest memo middle after htr hl ih =>
    obtain ⟨hb, hap⟩ := pairwise_cons.1 htl.apart
    have hr := ih ⟨(forall_mem_cons.1 htl.proper).2, (forall_mem_cons.1 htl.inside).2, hap⟩ (forall_mem_cons.1 ha).2
      (forall_mem_cons.1 hf).2 hc
    have hp := htl.proper spot mem_cons_self
    have hm : Clear middle :=
      htr.clear h hg (forall_mem_cons.1 htl.proper).2 hc
    intro other ho
    rcases mem_cons.1 ho with rfl | ho
    · rcases Nat.eq_or_lt_of_le (hp.start_le_stop h) with he | hlt
      · exact (hl.clear h hg hp hm).isSome_choice? he hl.contains
      · refine ha other mem_cons_self hlt _ _ _ ⟨rfl, rfl⟩ hp (fun known hk hst hrn hsto => ?_) hm hl
        -- the spots after this one have touched only what lies behind it
        rcases htr.inside (fun hmm hs => hs.inside h hg (htl.proper _ (mem_cons_of_mem _ hmm))) hk
          with hold | ⟨next, hn, hi⟩
        · exact hf other mem_cons_self known hold hst hrn hsto
        · have := hb next hn
          have := hi.2
          omega
    · exact hl.extends.isSome_choice? (hr other ho)

private theorem Stuck.trail_empty (hst : Stuck g chart start stop memo)
    (ht : Trail (Settles g chart) spots memo after)
    (hsp : ∀ spot ∈ spots, Proper g chart spot ∧ spot.start = spot.stop) :
    Stuck g chart start stop after :=
  ht.invariant (Stuck g chart start stop)
    (fun hmm hs hm => hm.settles_empty hs h hg (hsp _ hmm).1 (hsp _ hmm).2) hst

omit hg in
/-- Around a spot over a full range there is only room for spots over nothing. -/
private theorem Tiles.empty_of_spans {first rest : List Spot} (ht : Tiles g chart start stop (first ++ spot :: rest))
    (hs : Spans start stop spot) :
    (∀ other ∈ first, Proper g chart other ∧ other.start = other.stop) ∧
      ∀ other ∈ rest, Proper g chart other ∧ other.start = other.stop := by
  obtain ⟨-, hr, hf⟩ := pairwise_append.1 ht.apart
  obtain ⟨hst, hsto⟩ := hs
  have he : ∀ other ∈ first ++ spot :: rest, other.stop ≤ spot.start ∨ spot.stop ≤ other.start →
      Proper g chart other ∧ other.start = other.stop := by
    intro other hm ho
    have hi := ht.inside other hm
    have hle := (ht.proper other hm).start_le_stop h
    exact ⟨ht.proper other hm, by omega⟩
  exact ⟨fun other ho => he other (mem_append_left _ ho) (.inl (hf other ho spot mem_cons_self)),
    fun other ho => he other (mem_append_right _ (mem_cons_of_mem _ ho)) (.inr ((pairwise_cons.1 hr).1 other ho))⟩

/-- Settling one spot of a stuck range ends with a derivation or leaves the range stuck. -/
def Decides (grammar : Grammar) (chart : Chart) (start stop : Nat) (spot : Spot) (memo after : Memo) : Prop :=
  Proper grammar chart spot → Spans start stop spot → Stuck grammar chart start stop memo →
    (choice? after spot).isSome ∨ Stuck grammar chart start stop after

/-- Following one way to a derivation in a stuck range gets to its end, or meets a spot over the full range that has no
derivation. -/
private theorem Stuck.trail_option (hst : Stuck g chart start stop memo)
    (ht : Trail (fun next before after => Settles g chart next before after ∧
      Decides g chart start stop next before after) option memo after) (htl : Tiles g chart start stop option)
    (hsh : ∀ first last, last - first < stop - start → Alive g chart first last) :
    (∀ member ∈ option, (choice? after member).isSome) ∨
      Stuck g chart start stop after ∧ ∃ member ∈ option, Spans start stop member ∧ after.contains member := by
  have hs := ht.imp And.left
  by_cases hf : ∃ member ∈ option, Spans start stop member
  · obtain ⟨member, hm, hsp⟩ := hf
    obtain ⟨first, rest, rfl⟩ := append_of_mem hm
    obtain ⟨hfr, hr⟩ := htl.empty_of_spans h hsp
    obtain ⟨middle, hrr, hfro⟩ := ht.split
    cases hrr with
    | cons hrr hl =>
      have hc := hs.clear h hg htl.proper hst.clear
      have hb := hst.trail_empty h hg (hrr.imp And.left) hr
      rcases hl.2 (htl.proper member hm) hsp hb with hch | hmd
      · refine .inl fun other ho => ?_
        have hk := hs.contains ho
        rcases mem_append.1 ho with ho | ho
        · exact hc.isSome_choice? (hfr other ho).2 hk
        · rcases mem_cons.1 ho with rfl | ho
          · exact ((hfro.imp And.left).extends Settles.extends).isSome_choice? hch
          · exact hc.isSome_choice? (hr other ho).2 hk
      · exact .inr ⟨hmd.trail_empty h hg (hfro.imp And.left) hfr, member, hm, hsp, hs.contains hm⟩
  · -- every spot on the way has a shorter range, of which nothing is known yet
    refine .inl (hs.isSome_choice? h hg htl (fun member hm hlt => ?_) (fun member hm => ?_) hst.clear)
    · have hi := htl.inside member hm
      refine hsh _ _ ?_
      by_contra hle
      exact hf ⟨member, hm, by omega, by omega⟩
    · intro other ho hsta hlt hsto
      have hi := htl.inside member hm
      obtain ⟨⟨hfr, hl⟩, -⟩ := hst.quiet other ho (by omega) hlt (by omega)
      exact hf ⟨member, hm, by omega, by omega⟩

/-- Following all ways to a derivation in a stuck range gets to the end of one, or meets such a spot on each. -/
private theorem Stuck.trail_options {ways : List (List Spot)} (hs : Stuck g chart start stop memo)
    (ht : Trail (fun next before after => Settles g chart next before after ∧
      Decides g chart start stop next before after) ways.flatten memo after)
    (htl : ∀ option ∈ ways, Tiles g chart start stop option)
    (hsh : ∀ first last, last - first < stop - start → Alive g chart first last) :
    (∃ option ∈ ways, ∀ member ∈ option, (choice? after member).isSome) ∨ Stuck g chart start stop after ∧
        ∀ option ∈ ways, ∃ member ∈ option, Spans start stop member ∧ after.contains member := by
  induction ways generalizing after with
  | nil =>
    cases ht
    exact .inr ⟨hs, forall_mem_nil _⟩
  | cons option ways ih =>
    rw [flatten_cons] at ht
    obtain ⟨middle, hr, hf⟩ := ht.split
    have he := (hf.imp And.left).extends Settles.extends
    rcases ih hr fun other ho => htl other (mem_cons_of_mem _ ho) with
      ⟨other, ho, hall⟩ | ⟨hm, hw⟩
    · exact .inl ⟨other, mem_cons_of_mem _ ho, fun member hmm =>
        he.isSome_choice? (hall member hmm)⟩
    · rcases hm.trail_option h hg hf (htl option mem_cons_self) hsh with hall | ⟨ha, hmt⟩
      · exact .inl ⟨option, mem_cons_self, hall⟩
      · refine .inr ⟨ha, fun other ho => ?_⟩
        rcases mem_cons.1 ho with rfl | ho
        · exact hmt
        · obtain ⟨member, hmm, hsp, hk⟩ := hw other ho
          exact ⟨member, hmm, hsp, he.contains hk⟩

private theorem Settles.decides (hs : Settles g chart spot memo after)
    (hsh : ∀ first last, last - first < stop - start → Alive g chart first last) :
    Decides g chart start stop spot memo after := by
  refine Settles.induction (motive := Decides g chart start stop) (fun _ _ _ hst => .inr hst) ?_ hs
  intro spot memo after hn ht hp hsp hst
  have htl : ∀ option ∈ options g chart spot, Tiles g chart start stop option := by
    obtain ⟨rfl, rfl⟩ := hsp
    exact fun option ho => tiles_of_mem_options h hg ho
  rw [dependencies_eq_flatten] at ht
  rw [choice?_insert_verdict]
  rcases (hst.insert hsp (.inl rfl)).trail_options h hg ht htl hsh with
    ⟨option, ho, hall⟩ | ⟨ha, hw⟩
  · exact .inl (isSome_choose ho hall)
  · cases hc : choose g chart after spot with
    | some choice => exact .inl rfl
    | none => exact .inr (ha.insert hsp (.inr ⟨by rw [verdict, hc], hw⟩))

/-- A spot of a range of which nothing is known gets a derivation, whatever the range. -/
private theorem alive (start stop : Nat) : Alive g chart start stop := by
  induction hsz : stop - start using Nat.strongRecOn generalizing start stop with
  | _ size ih =>
    intro spot memo after hsp hp hf hc hs
    have ⟨hst, hsto⟩ := hsp
    rcases Nat.eq_or_lt_of_le (hp.start_le_stop h) with he | hlt
    · exact (hs.clear h hg hp hc).isSome_choice? he hs.contains
    · have hstu : Stuck g chart start stop memo := hf.stuck hc (by omega)
      rcases hs.decides h hg (fun first last hl => ih _ (by omega) first last rfl) hp hsp hstu with
        hch | ha
      · exact hch
      · refine absurd hs.contains (ha.not_contains h (fun other ho => hs.settled fun hop => ?_) hp.1 hsp)
        have ⟨hfr, hls⟩ := ho
        exact hf other (contains_of_eq_some hop) (by omega) (by omega) (by omega)

/-- A phrase of the chart over something gets a choice when it is solved. -/
theorem isSome_choice?_solve {name : String} (hp : Founded g chart.column (.phrase name start stop))
    (hlt : start < stop) :
    (choice? (solve g chart name start stop) (.phrase name start stop)).isSome := by
  refine alive h hg start stop _ _ _ ⟨rfl, rfl⟩ ⟨hp, hlt⟩ (fun spot hk => ?_) (fun spot _ => ?_)
    (settles_solve h name start stop)
  · simp at hk
  · simp

end Forest

end TreeLint
