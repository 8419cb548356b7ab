import TreeLint.Proofs.ChartLinks

/-!
# Reading a chart

Reading goes through states: the columns before a position, the gaps so far, and the first items at the position. One
step scans a token or skips some (`Reaches`). What every step keeps (`Progress`) gives what holds of the whole chart
(`Faithful`):

* the chart is in order: its links lead back to items, and its items are founded;
* its columns are closed, the token at a position has been scanned there, and the first column begins with the start
  symbol;
* a gap begins, and the reading stops, only where no item waits for the token at hand.
-/

namespace TreeLint

open List

namespace Chart

/-- The columns of an array as a function of the position; there is nothing beyond its end. -/
def columnAt (columns : Array Column) (position : Nat) : Column :=
  columns.getD position {}

theorem columnAt_push (columns : Array Column) (column : Column) :
    columnAt (columns.push column) = Function.update (columnAt columns) columns.size column := by
  funext position
  unfold columnAt
  rw [Array.getD_eq_getD_getElem?, Array.getElem?_push]
  by_cases h : position = columns.size
  · subst h
    simp
  · rw [if_neg h, Function.update_of_ne h, Array.getD_eq_getD_getElem?]

theorem columnAt_append_replicate (columns : Array Column) (count : Nat) :
    columnAt (columns ++ Array.replicate count ({} : Column)) = columnAt columns := by
  funext position
  unfold columnAt
  rw [Array.getD_eq_getD_getElem?, Array.getD_eq_getD_getElem?, Array.getElem?_append]
  split
  · rfl
  · rename_i h
    rw [Array.getElem?_replicate, @Array.getElem?_eq_none _ position columns (by omega)]
    split <;> rfl

theorem columnAt_of_size_le {columns : Array Column} {position : Nat} (h : columns.size ≤ position) :
    columnAt columns position = {} := by
  rw [columnAt, Array.getD_eq_getD_getElem?, Array.getElem?_eq_none h, Option.getD_none]

variable {g : Grammar} {kinds : Array String} {bound : Int} {columns : Array Column} {gaps : List Gap}
  {position start : Nat} {kernel column : Column} {item : Item}

/-- The columns with a further one, closed. -/
abbrev extend (grammar : Grammar) (columns : Array Column) (position : Nat) (kernel : Column) : Array Column :=
  columns.push (close grammar columns position kernel)

/-- The states that reading goes through. -/
inductive Reaches (grammar : Grammar) (kinds : Array String) (bound : Int) :
    Array Column → List Gap → Nat → Column → Prop
  | seed : Reaches grammar kinds bound #[] [] 0 (seed grammar)
  | scan {columns : Array Column} {gaps : List Gap} {position : Nat} {kernel : Column} :
      Reaches grammar kinds bound columns gaps position kernel → position < kinds.size →
        Reaches grammar kinds bound (columns.push (close grammar columns position kernel)) gaps (position + 1)
          (scan grammar (close grammar columns position kernel) position (kinds.getD position ""))
  | skip {columns : Array Column} {gaps : List Gap} {position target : Nat} {kernel : Column} :
      Reaches grammar kinds bound columns gaps position kernel → position < kinds.size →
        (Chart.scan grammar (close grammar columns position kernel) position (kinds.getD position "")).items.isEmpty →
          resync? kinds (close grammar columns position kernel) position bound = some target →
            Reaches grammar kinds bound (columns.push (close grammar columns position kernel) ++
                Array.replicate (target - position - 1) ({} : Column))
              (gaps ++ [⟨position, target⟩]) target (carry grammar (close grammar columns position kernel) position)

/-- How reading ends at a position: at the end of the input, or where nothing can be scanned or skipped to. -/
inductive Ends (grammar : Grammar) (kinds : Array String) (bound : Int) (column : Column) (position : Nat) :
    Option Nat → Prop
  | finished : kinds.size ≤ position → Ends grammar kinds bound column position none
  | stuck : position < kinds.size → (scan grammar column position (kinds.getD position "")).items.isEmpty →
      resync? kinds column position bound = none → Ends grammar kinds bound column position (some position)

theorem readFrom_reaches (h : Reaches g kinds bound columns gaps position kernel) :
    ∃ columns' gaps' position' kernel', Reaches g kinds bound columns' gaps' position' kernel' ∧
      (readFrom g kinds bound columns gaps position kernel).columns =
        columns'.push (close g columns' position' kernel') ∧
      (readFrom g kinds bound columns gaps position kernel).gaps = gaps' ∧
      Ends g kinds bound (close g columns' position' kernel') position'
        (readFrom g kinds bound columns gaps position kernel).stopped := by
  fun_induction readFrom g kinds bound columns gaps position kernel with
  | case1 columns gaps position kernel column columns' hlt scanned he hr =>
    exact ⟨columns, gaps, position, kernel, h, rfl, rfl, .stuck hlt he hr⟩
  | case2 columns gaps position kernel column columns' hlt scanned he target hr ih =>
    exact ih (h.skip hlt he hr)
  | case3 columns gaps position kernel column columns' hlt scanned he ih => exact ih (h.scan hlt)
  | case4 columns gaps position kernel column columns' hlt =>
    exact ⟨columns, gaps, position, kernel, h, rfl, rfl, .finished (by omega)⟩

/-! ## The steps -/

theorem mem_scan_items_iff {kind : String} (hc : column.Coherent g) : item ∈ (scan g column position kind).items ↔
      ∃ before ∈ column.items, g.next? before = some (.terminal kind) ∧ item = before.advance := by
  unfold scan
  rw [Column.mem_items_addAll_iff (Column.coherent_empty g)]
  simp only [Array.not_mem_empty, mem_map, Prod.mk.injEq, false_or]
  constructor
  · rintro ⟨link, before, hb, rfl, -⟩
    obtain ⟨hm, hn⟩ := hc.mem_waiting_iff.1 hb
    exact ⟨before, hm, hn, rfl⟩
  · rintro ⟨before, hm, hn, rfl⟩
    exact ⟨_, before, hc.mem_waiting_iff.2 ⟨hm, hn⟩, rfl, rfl⟩

/-- Where nothing is scanned, no item waits for the token at hand. -/
private theorem next?_ne_of_scan_isEmpty {kind : String} (hc : column.Coherent g)
    (h : (scan g column position kind).items.isEmpty) :
    ∀ item ∈ column.items, g.next? item ≠ some (.terminal kind) := by
  intro item hi hn
  have hm : item.advance ∈ (scan g column position kind).items :=
    (mem_scan_items_iff hc).2 ⟨item, hi, hn, rfl⟩
  rw [Array.isEmpty_iff] at h
  rw [h] at hm
  exact Array.not_mem_empty _ hm

private theorem lt_size_of_resync? {target : Nat} (h : resync? kinds column position bound = some target) :
    target < kinds.size := by
  have hm := mem_of_find?_eq_some h
  rw [mem_range'_1] at hm
  omega

/-- All alternatives of a nonterminal begin at a position. -/
def Begun (grammar : Grammar) (columns : Nat → Column) (name : String) (position : Nat) : Prop :=
  ∀ alternative ∈ grammar.alternativesOf name, (⟨alternative.id, 0, position⟩ : Item) ∈ (columns position).items

/-- What every step of reading keeps. -/
structure Progress (grammar : Grammar) (kinds : Array String) (columns : Array Column) (gaps : List Gap)
    (position : Nat) (kernel : Column) : Prop where
  size_eq : columns.size = position
  le_size : position ≤ kinds.size
  sane : Sane grammar kinds (Function.update (columnAt columns) position kernel) gaps
  closed : ∀ start < position, (columnAt columns start).Closed grammar columns start
  scanned : ∀ start < position, ∀ item ∈ (columnAt columns start).items,
    grammar.next? item = some (.terminal (kinds.getD start "")) →
      item.advance ∈ (Function.update (columnAt columns) position kernel (start + 1)).items
  seeded : Begun grammar (Function.update (columnAt columns) position kernel) grammar.start 0
  blocked : ∀ gap ∈ gaps, gap.start < gap.stop ∧ gap.stop < kinds.size ∧ gap.start < position ∧
    ∀ item ∈ (columnAt columns gap.start).items, grammar.next? item ≠ some (.terminal (kinds.getD gap.start ""))

private theorem progress_seed (hg : g.Tabulated) (kinds : Array String) :
    Progress g kinds #[] [] 0 (seed g) := by
  have he : columnAt #[] = fun _ => ({} : Column) := by
    funext position
    exact columnAt_of_size_le (Nat.zero_le _)
  refine ⟨rfl, Nat.zero_le _, ?_, by simp, by simp, ?_, by simp⟩
  · rw [he]
    refine (sane_empty g kinds).addAll hg 0 _ fun step hs => ?_
    obtain ⟨alt, ha, rfl⟩ := mem_map.1 hs
    exact .start (Grammar.mem_alternativesOf_iff.1 ha).1
  · intro alt ha
    rw [Function.update_self, seed, Column.mem_items_addAll_iff (Column.coherent_empty g)]
    exact .inr ⟨none, mem_map.2 ⟨alt, ha, rfl⟩⟩

private theorem consequences_push (column : Column) (hs : start ≤ columns.size) (hf : item.FitsAt g start) :
    consequences g (columns.push column) start item = consequences g columns start item := by
  unfold consequences
  split
  · split
    · rfl
    · rename_i ho
      have hle : item.origin ≤ start := hf.choose_spec.2.2
      have hlt : item.origin < columns.size := by
        rw [beq_iff_eq] at ho
        omega
      rw [Array.getD_eq_getD_getElem?, Array.getElem?_push_lt hlt, Array.getD_eq_getD_getElem?,
        Array.getElem?_eq_getElem hlt]
  · rfl
  · rfl

private theorem consequences_append_replicate (count start : Nat) (item : Item) :
    consequences g (columns ++ Array.replicate count ({} : Column)) start item =
      consequences g columns start item := by
  have hc : (columns ++ Array.replicate count ({} : Column)).getD item.origin {} = columns.getD item.origin {} :=
    congrFun (columnAt_append_replicate columns count) item.origin
  unfold consequences
  rw [hc]

namespace Progress

variable (h : Progress g kinds columns gaps position kernel) (hg : g.Tabulated)

include h

private theorem soundAt (start : Nat) (hs : start ≠ position) : (columnAt columns start).Sound g start := by
  have := h.sane.sound start
  rwa [Function.update_of_ne hs] at this

theorem earlier_sound : ∀ start < position, (columns.getD start {}).Sound g start :=
  fun start hs => h.soundAt start (Nat.ne_of_lt hs)

theorem kernel_sound : kernel.Sound g position := by
  have := h.sane.sound position
  rwa [Function.update_self] at this

private theorem columnAt_extend : columnAt (extend g columns position kernel) =
    Function.update (columnAt columns) position (close g columns position kernel) := by
  rw [columnAt_push, h.size_eq]

private theorem extend_self : columnAt (extend g columns position kernel) position =
    close g columns position kernel := by
  rw [h.columnAt_extend, Function.update_self]

private theorem extend_of_lt (hs : start < position) :
    columnAt (extend g columns position kernel) start = columnAt columns start := by
  rw [h.columnAt_extend, Function.update_of_ne (Nat.ne_of_lt hs)]

private theorem extend_of_gt (hs : position < start) : columnAt (extend g columns position kernel) start = {} :=
  columnAt_of_size_le (by rw [Array.size_push, h.size_eq]; exact hs)

private theorem extend_blocked : ∀ gap ∈ gaps, gap.start < gap.stop ∧ gap.stop < kinds.size ∧ gap.start < position ∧
    ∀ item ∈ (columnAt (extend g columns position kernel) gap.start).items,
      g.next? item ≠ some (.terminal (kinds.getD gap.start "")) := by
  intro gap hgp
  obtain ⟨hlt, hs, hp, hb⟩ := h.blocked gap hgp
  rw [h.extend_of_lt hp]
  exact ⟨hlt, hs, hp, hb⟩

include hg

theorem close_sound : (close g columns position kernel).Sound g position :=
  h.kernel_sound.close hg h.earlier_sound

/-- With its last column closed, the chart so far is in order. -/
theorem close_sane : Sane g kinds (columnAt (extend g columns position kernel)) gaps := by
  rw [h.columnAt_extend]
  exact h.sane.close hg fun _ _ => rfl

private theorem extend_closed (start : Nat) : (columnAt (extend g columns position kernel) start).Closed g
    (extend g columns position kernel) start := by
  intro item hi
  have hf := ((h.close_sane hg).sound start).fits item hi
  rcases Nat.lt_trichotomy start position with hlt | rfl | hgt
  · rw [h.extend_of_lt hlt] at hi ⊢
    rw [consequences_push _ (h.size_eq ▸ Nat.le_of_lt hlt) hf]
    exact h.closed start hlt item hi
  · rw [h.extend_self] at hi ⊢
    rw [consequences_push _ (Nat.le_of_eq h.size_eq.symm) hf]
    exact closed_close hg h.earlier_sound h.kernel_sound item hi
  · rw [h.extend_of_gt hgt] at hi
    exact absurd hi (Array.not_mem_empty _)

/-- Closing the last column loses none of its items. -/
theorem close_grows : kernel.Grows (close g columns position kernel) :=
  grows_close hg h.earlier_sound h.kernel_sound

private theorem extend_grows : Grows (Function.update (columnAt columns) position kernel)
    (columnAt (extend g columns position kernel)) := by
  have hgr : (Function.update (columnAt columns) position kernel position).Grows
      (close g columns position kernel) := by
    rw [Function.update_self]
    exact h.close_grows hg
  have := grows_update hgr
  rwa [Function.update_idem, ← h.columnAt_extend] at this

private theorem extend_seeded : Begun g (columnAt (extend g columns position kernel)) g.start 0 :=
  fun alt ha => (h.extend_grows hg 0).items (h.seeded alt ha)

private theorem extend_scanned (hs : start < position)
    (hi : item ∈ (columnAt (extend g columns position kernel) start).items)
    (hn : g.next? item = some (.terminal (kinds.getD start ""))) :
    item.advance ∈ (columnAt (extend g columns position kernel) (start + 1)).items := by
  rw [h.extend_of_lt hs] at hi
  exact (h.extend_grows hg (start + 1)).items (h.scanned start hs item hi hn)

/-- Where nothing waits for the token at the position, only tokens before it have been waited for. -/
private theorem extend_scanned_of_blocked (hb : ∀ item ∈ (close g columns position kernel).items,
      g.next? item ≠ some (.terminal (kinds.getD position "")))
    (hi : item ∈ (columnAt (extend g columns position kernel) start).items)
    (hn : g.next? item = some (.terminal (kinds.getD start ""))) : start < position ∧
      item.advance ∈ (columnAt (extend g columns position kernel) (start + 1)).items := by
  rcases Nat.lt_trichotomy start position with hlt | rfl | hgt
  · exact ⟨hlt, h.extend_scanned hg hlt hi hn⟩
  · rw [h.extend_self] at hi
    exact absurd hn (hb item hi)
  · rw [h.extend_of_gt hgt] at hi
    exact absurd hi (Array.not_mem_empty _)

/-- One step over a token that some item expects. -/
theorem scan (hlt : position < kinds.size) :
    Progress g kinds (extend g columns position kernel) gaps (position + 1)
      (scan g (close g columns position kernel) position (kinds.getD position "")) := by
  have hc := (h.close_sound hg).coherent
  refine ⟨by rw [Array.size_push, h.size_eq], hlt, ?_, fun start _ => h.extend_closed hg start, ?_, ?_, ?_⟩
  · have hs := (h.close_sane hg).addAll hg (position + 1)
      (((close g columns position kernel).waiting (.terminal (kinds.getD position ""))).map
        fun item => (item.advance, some (.token position))) ?_
    · rwa [h.extend_of_gt (Nat.lt_succ_self _)] at hs
    · intro step hst
      obtain ⟨item, hi, rfl⟩ := mem_map.1 hst
      obtain ⟨hm, hn⟩ := hc.mem_waiting_iff.1 hi
      exact .link (.token (by rwa [h.extend_self]) hlt hn)
  · intro start hsta item hi hn
    rcases Nat.lt_succ_iff_lt_or_eq.1 hsta with hsta | rfl
    · rw [Function.update_of_ne (by omega)]
      exact h.extend_scanned hg hsta hi hn
    · rw [Function.update_self, mem_scan_items_iff hc]
      rw [h.extend_self] at hi
      exact ⟨item, hi, hn, rfl⟩
  · rw [Begun, Function.update_of_ne (Nat.succ_ne_zero _).symm]
    exact h.extend_seeded hg
  · intro gap hga
    obtain ⟨hgp, hsz, hp, hb⟩ := h.extend_blocked gap hga
    exact ⟨hgp, hsz, by omega, hb⟩

/-- One step over tokens that no item expects. -/
theorem skip {target : Nat} (he : (Chart.scan g (close g columns position kernel) position
      (kinds.getD position "")).items.isEmpty)
    (hr : resync? kinds (close g columns position kernel) position bound = some target) :
    Progress g kinds
      (extend g columns position kernel ++ Array.replicate (target - position - 1) ({} : Column))
      (gaps ++ [⟨position, target⟩]) target (carry g (close g columns position kernel) position) := by
  have ht := lt_of_resync? hr
  have hw := next?_ne_of_scan_isEmpty (h.close_sound hg).coherent he
  refine ⟨?_, Nat.le_of_lt (lt_size_of_resync? hr), ?_, ?_, ?_, ?_, ?_⟩
  · rw [Array.size_append, Array.size_push, Array.size_replicate, h.size_eq]
    omega
  all_goals rw [columnAt_append_replicate]
  · have hs := ((h.close_sane hg).mono_gaps (subset_append_left gaps [⟨position, target⟩])).addAll hg
      target (((close g columns position kernel).items.toList.filter (isLive g)).map
        fun item => (item, some (.skip position))) ?_
    · rwa [h.extend_of_gt ht] at hs
    · intro step hst
      obtain ⟨item, hi, rfl⟩ := mem_map.1 hst
      obtain ⟨hm, hl⟩ := mem_filter.1 hi
      exact .link (.skip (by rw [h.extend_self]; exact Array.mem_toList_iff.1 hm) hl (by simp) ht)
  · intro start hsta item hi
    rw [consequences_append_replicate]
    exact h.extend_closed hg start item hi
  · intro start hsta item hi hn
    obtain ⟨hb, hm⟩ := h.extend_scanned_of_blocked hg hw hi hn
    rwa [Function.update_of_ne (by omega)]
  · rw [Begun, Function.update_of_ne (by omega)]
    exact h.extend_seeded hg
  · intro gap hga
    rcases mem_append.1 hga with hga | hga
    · obtain ⟨hgp, hsz, hp, hbl⟩ := h.extend_blocked gap hga
      exact ⟨hgp, hsz, by omega, hbl⟩
    · rw [mem_singleton] at hga
      subst hga
      exact ⟨ht, lt_size_of_resync? hr, ht, by rwa [h.extend_self]⟩

end Progress

theorem Reaches.progress (h : Reaches g kinds bound columns gaps position kernel) (hg : g.Tabulated) :
    Progress g kinds columns gaps position kernel := by
  induction h with
  | seed => exact progress_seed hg kinds
  | scan _ hlt ih => exact ih.scan hg hlt
  | skip _ _ he hr ih => exact ih.skip hg he hr

/-! ## Whole charts -/

/-- What holds of a chart that was read from kinds of tokens. -/
structure Faithful (grammar : Grammar) (kinds : Array String) (chart : Chart) : Prop where
  sane : Sane grammar kinds chart.column chart.gaps
  closed : ∀ position, (chart.column position).Closed grammar chart.columns position
  scanned : ∀ {position : Nat} {item : Item}, item ∈ (chart.column position).items → position < kinds.size →
    grammar.next? item = some (.terminal (kinds.getD position "")) → item.advance ∈ (chart.column (position + 1)).items
  seeded : Begun grammar chart.column grammar.start 0
  gap_blocked : ∀ gap ∈ chart.gaps, gap.start < gap.stop ∧ gap.stop < kinds.size ∧
    ∀ item ∈ (chart.column gap.start).items, grammar.next? item ≠ some (.terminal (kinds.getD gap.start ""))
  stop_blocked : ∀ {position : Nat}, chart.stopped = some position → position < kinds.size ∧
    ∀ item ∈ (chart.column position).items, grammar.next? item ≠ some (.terminal (kinds.getD position ""))
  column_of_lt : ∀ {position : Nat}, kinds.size < position → chart.column position = {}

/-- The chart of any kinds of tokens is faithful to them. -/
theorem faithful_read (hg : g.Tabulated) (kinds : Array String) (bound : Int) :
    Faithful g kinds (read g kinds bound) := by
  obtain ⟨columns, gaps, position, kernel, hr, hc, hgp, he⟩ :=
    readFrom_reaches (Reaches.seed : Reaches g kinds bound _ _ _ _)
  have h := hr.progress hg
  have hcl : (read g kinds bound).column = columnAt (extend g columns position kernel) := by
    funext other
    rw [extend, ← hc]
    rfl
  -- where the reading ended, no item waits for the token at hand
  have hl : position < kinds.size → ∀ item ∈ (close g columns position kernel).items,
      g.next? item ≠ some (.terminal (kinds.getD position "")) := by
    intro hlt
    generalize (readFrom g kinds bound #[] [] 0 (seed g)).stopped = stopped at he
    cases he with
    | finished hle => omega
    | stuck _ hem _ => exact next?_ne_of_scan_isEmpty (h.close_sound hg).coherent hem
  have hg' : (read g kinds bound).gaps = gaps := hgp
  constructor
  · rw [hcl, hg']
    exact h.close_sane hg
  · have hrd : (read g kinds bound).columns = extend g columns position kernel := hc
    rw [hcl, hrd]
    exact h.extend_closed hg
  · intro other item hi hlt hn
    rw [hcl] at hi ⊢
    by_cases ho : other < position
    · exact h.extend_scanned hg ho hi hn
    · exact (h.extend_scanned_of_blocked hg (hl (by omega)) hi hn).2
  · rw [hcl]
    exact h.extend_seeded hg
  · intro gap hga
    rw [hg'] at hga
    rw [hcl]
    obtain ⟨hlt, hs, -, hb⟩ := h.extend_blocked gap hga
    exact ⟨hlt, hs, hb⟩
  · intro other hst
    have hs' : (readFrom g kinds bound #[] [] 0 (seed g)).stopped = some other := hst
    rw [hs'] at he
    cases he with
    | stuck hlt hem _ =>
      rw [hcl, h.extend_self]
      exact ⟨hlt, hl hlt⟩
  · intro other ho
    rw [hcl]
    exact h.extend_of_gt (Nat.lt_of_le_of_lt h.le_size ho)

end Chart

end TreeLint
