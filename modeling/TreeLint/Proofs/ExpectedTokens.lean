import TreeLint.Proofs.Recovery

/-!
# Expected tokens

As long as no token has been skipped, the kinds that the chart waits for are those that can follow the tokens before:
some sentential form of the start symbol begins with the kinds of these tokens and has the waited one next.

* `IsForm`, `MayFollow`: sentential forms by single steps of rewriting. `Expands` gives the same forms by
  the structure of the symbols, which is what inductions go over (`expands_of_rewrites`);
* completeness: an item advances over the kinds with which an expansion begins, so that some item waits for the next one
  (`Faithful.exists_waiting`);
* soundness: the nonterminal of every item stands in a form, right after the tokens before the item (`Called`). Closing
  a column keeps this (`called_close`), and so does reading (`Reaches.called`).
-/

namespace TreeLint

open List Grammar

namespace Grammar

variable {alts : List FlatAlternative} {symbols form next : List FlatSymbol}

/-! ## Sentential forms -/

def IsForm (grammar : Grammar) : List FlatSymbol → Prop :=
  Relation.ReflTransGen (Rewrites grammar.alternatives.toList) [.nonterminal grammar.start]

/-- Some sentential form begins with the given kinds and then the last one. -/
def MayFollow (grammar : Grammar) (kinds : List String) (kind : String) : Prop :=
  ∃ rest, grammar.IsForm (kinds.map .terminal ++ .terminal kind :: rest)

/-! ## Expansions -/

/-- Some of the nonterminals in a list of symbols are expanded, and so on in their expansions. -/
inductive Expands (alternatives : List FlatAlternative) : List FlatSymbol → List FlatSymbol → Prop
  | nil : Expands alternatives [] []
  | keep (symbol : FlatSymbol) {symbols form : List FlatSymbol} :
      Expands alternatives symbols form → Expands alternatives (symbol :: symbols) (symbol :: form)
  | expand {alternative : FlatAlternative} {symbols first rest : List FlatSymbol} :
      alternative ∈ alternatives → Expands alternatives alternative.symbols first → Expands alternatives symbols rest →
          Expands alternatives (.nonterminal alternative.lhs :: symbols) (first ++ rest)

private theorem expands_refl (alts : List FlatAlternative) (symbols : List FlatSymbol) :
    Expands alts symbols symbols := by
  induction symbols with
  | nil => exact .nil
  | cons symbol symbols ih => exact .keep symbol ih

theorem Expands.rewrites (h : Expands alts symbols form) (hs : Rewrites alts form next) :
    Expands alts symbols next := by
  induction h generalizing next with
  | nil =>
    generalize hf : ([] : List FlatSymbol) = form at hs
    cases hs with
    | replace before after => simp at hf
  | @keep symbol symbols form hsy ih =>
    generalize hf : symbol :: form = all at hs
    cases hs with
    | @replace before after alt hmm =>
      cases before with
      | nil =>
        -- the kept symbol itself is replaced
        cases hf
        rw [nil_append]
        exact .expand hmm (expands_refl alts _) hsy
      | cons first before =>
        cases hf
        exact .keep symbol (ih (.replace before after hmm))
  | @expand alt symbols first rest hmm hsb hr ihsub ihrest =>
    generalize hf : first ++ rest = all at hs
    cases hs with
    | @replace before after other ho =>
      rcases append_eq_append_iff.1 hf with ⟨middle, rfl, rfl⟩ | ⟨middle, rfl, hm⟩
      · -- the replaced nonterminal is in what comes after
        have hl := ihrest (.replace middle after ho)
        rw [append_assoc]
        exact .expand hmm hsb hl
      · cases middle with
        | nil =>
          rw [append_nil] at hsb
          have hs : Rewrites alts rest (other.symbols ++ after) := by
            rw [← nil_append rest, ← hm]
            exact .replace [] after ho
          exact .expand hmm hsb (ihrest hs)
        | cons symbol middle =>
          cases hm
          have hi := ihsub (.replace before middle ho)
          have hb := Expands.expand hmm hi hr
          simpa using hb

theorem expands_of_rewrites (h : Relation.ReflTransGen (Rewrites alts) symbols form) :
    Expands alts symbols form := by
  induction h with
  | refl => exact expands_refl alts symbols
  | tail _ hs ih => exact ih.rewrites hs

theorem Expands.derives {kinds : List String} (h : Expands alts symbols form)
    (hf : form = kinds.map .terminal) : Derives alts symbols kinds := by
  induction h generalizing kinds with
  | nil =>
    rw [map_eq_nil_iff.1 hf.symm]
    exact .nil
  | keep symbol _ ih =>
    obtain ⟨kind, rest, rfl, hs, hr⟩ := map_eq_cons_iff.1 hf.symm
    rw [← hs]
    exact .terminal (ih hr.symm)
  | expand hm _ _ ihsub ihrest =>
    obtain ⟨first, rest, rfl, hfr, hr⟩ := map_eq_append_iff.1 hf.symm
    exact .nonterminal hm (ihsub hfr.symm) (ihrest hr.symm)

end Grammar

namespace Chart

variable {grammar : Grammar} {kinds : Array String} {bound : Int} {chart : Chart} {columns : Array Column}
  {gaps : List Gap} {position : Nat} {kernel column : Column} {item : Item} {kind : String} {state : State}

/-! ## Completeness -/

theorem Faithful.exists_waiting (h : Faithful grammar kinds chart) (hg : grammar.Tabulated)
    {symbols form rest : List FlatSymbol} {word : List String}
    (he : Expands grammar.alternatives.toList symbols form)
    (hf : form = word.map .terminal ++ .terminal kind :: rest) (hi : item ∈ (chart.column position).items)
    (hexp : item.Expects grammar symbols) (ha : word <+: kinds.toList.drop position) :
    ∃ waiting ∈ (chart.column (position + word.length)).items, grammar.next? waiting = some (.terminal kind) := by
  induction he generalizing position item word rest with
  | nil => simp at hf
  | @keep symbol symbols form _ ih =>
    cases word with
    | nil =>
      have hs : symbol = .terminal kind := (List.cons.inj hf).1
      exact ⟨item, hi, hs ▸ hexp.next?⟩
    | cons first word =>
      obtain ⟨hs, hf⟩ := List.cons.inj hf
      obtain ⟨hfr, ha⟩ := ahead_cons ha
      have hn : grammar.next? item = some (.terminal first) := hs ▸ hexp.next?
      have had := h.advance_token hi hn hfr
      have hl := ih hf had hexp.advance ha
      rwa [length_cons, ← Nat.add_assoc, Nat.add_right_comm]
  | @expand alt symbols first later hmm hsb _ ihsub ihrest =>
    -- the kind may come from what follows the nonterminal, after a part of the word
    have hb : ∀ part more, word = part ++ more → first = part.map .terminal →
        later = more.map .terminal ++ .terminal kind :: rest → ∃ waiting ∈
          (chart.column (position + word.length)).items, grammar.next? waiting = some (.terminal kind) := by
      intro part more hw hp hm
      rw [hw] at ha ⊢
      obtain ⟨hpr, hmr⟩ := ahead_append ha
      have ho : Derives grammar.alternatives.toList [.nonterminal alt.lhs] part :=
        derives_singleton_iff.2 ⟨alt, hmm, rfl, hsb.derives hp⟩
      have had := h.advance hg ho hi (hexp.take [.nonterminal alt.lhs]) hpr
      have hwt := ihrest hm had hexp.advance hmr
      rwa [length_append, ← Nat.add_assoc]
    rcases append_eq_append_iff.1 hf with ⟨middle, hmd, hl⟩ | ⟨middle, hfr, hmd⟩
    · obtain ⟨part, more, hw, hp, hm⟩ := map_eq_append_iff.1 hmd
      exact hb part more hw hp.symm (by rw [hl, hm])
    · cases middle with
      | nil => exact hb word [] (by simp) (by simpa using hfr) (by simpa using hmd.symm)
      | cons symbol middle =>
        obtain ⟨rfl, -⟩ := List.cons.inj hmd
        have hst := h.predict hi hmm hexp.next?
        exact ihsub hfr hst (Item.expects_start hg hmm position) ha

private theorem Faithful.waits_of_mayFollow (h : Faithful grammar kinds chart) (hg : grammar.Tabulated)
    (hle : position ≤ kinds.size) (hf : grammar.MayFollow (kinds.toList.take position) kind) :
    ∃ item ∈ (chart.column position).items, grammar.next? item = some (.terminal kind) := by
  obtain ⟨rest, hr⟩ := hf
  have he := Grammar.expands_of_rewrites hr
  generalize hfr : (kinds.toList.take position).map FlatSymbol.terminal ++ .terminal kind :: rest = form at he
  generalize hs : [FlatSymbol.nonterminal grammar.start] = symbols at he
  cases he with
  | nil => simp at hfr
  | keep symbol =>
    cases hs
    cases ht : kinds.toList.take position <;> simp [ht] at hfr
  | @expand alt _ first later hm hsb hrs =>
    obtain ⟨hlh, rfl⟩ := List.cons.inj hs
    cases hrs
    rw [append_nil] at hfr
    have hof := mem_alternativesOf_iff.2 ⟨hm, (FlatSymbol.nonterminal.inj hlh).symm⟩
    have hw := h.exists_waiting hg hsb hfr.symm (h.seeded alt hof) (Item.expects_start hg hm 0)
      ( take_prefix position kinds.toList)
    have hl : 0 + (kinds.toList.take position).length = position := by
      rw [length_take, Array.length_toList]
      omega
    rwa [hl] at hw

/-! ## Soundness -/

/-- The nonterminal of an item stands in a sentential form, right after the tokens before the item. -/
def Called (grammar : Grammar) (kinds : Array String) (item : Item) : Prop :=
  ∃ rest, grammar.IsForm ((word kinds 0 item.origin).map .terminal ++ .nonterminal (grammar.lhsOf item) :: rest)

/-- The next symbol of an item stands in a sentential form, right after the tokens before its position. -/
private theorem Called.exists_form {symbol : FlatSymbol} (h : Called grammar kinds item)
    (hr : Recognizes grammar kinds (.item position item)) (ho : item.origin ≤ position)
    (hn : grammar.next? item = some symbol) :
    ∃ rest, grammar.IsForm ((word kinds 0 position).map .terminal ++ symbol :: rest) := by
  obtain ⟨rest, hf⟩ := h
  obtain ⟨alt, ha, hd⟩ := hr
  obtain ⟨found, hfn, hg⟩ := next?_eq_some_iff.1 hn
  rw [ha] at hfn
  cases hfn
  have hm := Array.mem_toList_iff.2 (Array.mem_of_getElem? ha)
  obtain ⟨hlt, hs⟩ := List.getElem?_eq_some_iff.1 hg
  have hsp : alt.symbols =
      alt.symbols.take item.dot ++ symbol :: alt.symbols.drop (item.dot + 1) := by
    rw [← hs, ← drop_eq_getElem_cons hlt, take_append_drop]
  rw [lhsOf_eq ha] at hf
  have hrp := hf.tail (.replace _ rest hm)
  have hrd := Grammar.rewrites_context hd.rewrites ((word kinds 0 item.origin).map .terminal)
    (symbol :: alt.symbols.drop (item.dot + 1) ++ rest)
  rw [hsp, append_assoc] at hrp
  have hall := hrp.trans hrd
  rw [← append_assoc, ← map_append, word_append_word (Nat.zero_le _) ho] at hall
  exact ⟨_, hall⟩

theorem called_close (h : Progress grammar kinds columns [] position kernel) (hg : grammar.Tabulated)
    (hc : ∀ start, ∀ item ∈ (Function.update (columnAt columns) position kernel start).items,
      Called grammar kinds item) :
    ∀ start, ∀ item ∈ (columnAt (columns.push (close grammar columns position kernel)) start).items,
      Called grammar kinds item := by
  have hcl : Sane grammar kinds (Function.update (columnAt columns) position (close grammar columns position kernel))
      [] ∧ ∀ item ∈ (close grammar columns position kernel).items, Called grammar kinds item := by
    refine close_induction (motive := fun column => Sane grammar kinds
      (Function.update (columnAt columns) position column) [] ∧ ∀ item ∈ column.items, Called grammar kinds item)
      ?_ ⟨h.sane, ?_⟩
    · rintro column item ⟨hs, hco⟩ hi
      refine ⟨hs.addAll_consequences hg (fun _ _ => rfl) hi, ?_⟩
      have hsl : Function.update (columnAt columns) position column position = column := Function.update_self ..
      have hsn := hs.sound position
      have hf := @Sane.founded _ _ _ _ hs position item (by rwa [hsl])
      rw [hsl] at hsn
      have hle : item.origin ≤ position := (hsn.fits item hi).choose_spec.2.2
      intro found hfn
      rcases (Column.mem_items_addAll_iff hsn.coherent).1 hfn with hfn | ⟨link, hst⟩
      · exact hco found hfn
      · rcases mem_consequences_iff.1 hst with ⟨-, hne, parent, hp, heq⟩ | ⟨name, hn, hr⟩
        · -- an item over which another is completed was called where it waited
          cases heq
          have hlt : item.origin < position := by omega
          have hw := (h.earlier_sound item.origin hlt).coherent.mem_waiting_iff.1 hp
          refine hc item.origin parent ?_
          rw [Function.update_of_ne (Nat.ne_of_lt hlt)]
          exact hw.1
        · rcases hr with ⟨alt, hof, heq⟩ | ⟨-, heq⟩
          · -- a predicted item is called by the item that waits for it
            cases heq
            obtain ⟨hm, hl⟩ := mem_alternativesOf_iff.1 hof
            have hfr := (hco item hi).exists_form (hf.derives hs hg) hle hn
            have hnm : grammar.lhsOf ⟨alt.id, 0, position⟩ = name :=
              (lhsOf_eq (hg.getElem?_id hm)).trans hl
            rw [← hnm] at hfr
            exact hfr
          · cases heq
            exact hco item hi
    · intro item hi
      refine hc position item ?_
      rwa [Function.update_self]
  intro start item hi
  rw [columnAt_push, h.size_eq] at hi
  by_cases hsta : start = position
  · subst hsta
    rw [Function.update_self] at hi
    exact hcl.2 item hi
  · rw [Function.update_of_ne hsta] at hi
    refine hc start item ?_
    rwa [Function.update_of_ne hsta]

theorem Reaches.called (h : Reaches grammar kinds bound columns gaps position kernel) (hg : grammar.Tabulated)
    (hgp : gaps = []) : ∀ start, ∀ item ∈ (Function.update (columnAt columns) position kernel start).items,
      Called grammar kinds item := by
  induction h with
  | seed =>
    intro start item hi
    by_cases hs : start = 0
    · subst hs
      rw [Function.update_self] at hi
      rcases (Column.mem_items_addAll_iff (Column.coherent_empty grammar)).1 hi with hi | ⟨link, hst⟩
      · exact absurd hi (Array.not_mem_empty _)
      · obtain ⟨alt, hof, heq⟩ := mem_map.1 hst
        cases heq
        obtain ⟨hm, hl⟩ := mem_alternativesOf_iff.1 hof
        refine ⟨[], ?_⟩
        rw [word_self, lhsOf_eq (hg.getElem?_id hm), hl]
        exact .refl
    · rw [Function.update_of_ne hs, columnAt_of_size_le (Nat.zero_le _)] at hi
      exact absurd hi (Array.not_mem_empty _)
  | @scan columns gaps position kernel hb hlt ih =>
    subst hgp
    have hp := hb.progress hg
    have hc := called_close hp hg (ih rfl)
    intro start item hi
    by_cases hs : start = position + 1
    · subst hs
      rw [Function.update_self] at hi
      obtain ⟨before, hm, -, rfl⟩ := (mem_scan_items_iff (hp.close_sound hg).coherent).1 hi
      refine hc position before ?_
      rwa [columnAt_push, hp.size_eq, Function.update_self]
    · rw [Function.update_of_ne hs] at hi
      exact hc start item hi
  | skip => simp at hgp

/-! ## The columns of a chart -/

private theorem readFrom_columns (grammar : Grammar) (kinds : Array String) (bound : Int) (columns : Array Column)
    (gaps : List Gap) (position : Nat) (kernel : Column) :
    ∃ more, (readFrom grammar kinds bound columns gaps position kernel).columns =
      columns.push (close grammar columns position kernel) ++ more := by
  fun_induction readFrom grammar kinds bound columns gaps position kernel with
  | case1 columns gaps position kernel column columns' | case4 columns gaps position kernel column columns' =>
    exact ⟨#[], by simp [columns', column]⟩
  | case2 columns gaps position kernel column columns' hlt scanned he target hr ih =>
    obtain ⟨more, hm⟩ := ih
    rw [hm, Array.push_eq_append, Array.append_assoc, Array.append_assoc]
    exact ⟨_, rfl⟩
  | case3 columns gaps position kernel column columns' hlt scanned he ih =>
    obtain ⟨more, hm⟩ := ih
    rw [hm, Array.push_eq_append, Array.append_assoc]
    exact ⟨_, rfl⟩

private theorem Visits.column_read (h : Visits grammar kinds bound state) (hg : grammar.Tabulated) :
    (read grammar kinds bound).column state.position = state.column grammar := by
  have hs := (h.reaches.progress hg).size_eq
  obtain ⟨more, hm⟩ :=
    readFrom_columns grammar kinds bound state.columns state.gaps state.position state.kernel
  rw [← h.read_eq, Chart.column, State.read, hm, Array.getD_eq_getD_getElem?, Array.getElem?_append, if_pos]
  · simp [← hs, State.column]
  · simp [hs]

private theorem Visits.waits_iff_mayFollow (h : Visits grammar kinds bound state) (hg : grammar.Tabulated)
    (hgp : state.gaps = []) :
    (∃ item ∈ (state.column grammar).items, grammar.next? item = some (.terminal kind)) ↔
      grammar.MayFollow (kinds.toList.take state.position) kind := by
  have hp := h.reaches.progress hg
  constructor
  · rintro ⟨item, hi, hn⟩
    have hs := hp.close_sane hg
    have hc := h.reaches.called hg hgp
    rw [hgp] at hp hs
    have hcl : item ∈
        (columnAt (state.columns.push (close grammar state.columns state.position state.kernel)) state.position).items
          := by
      rwa [columnAt_push, hp.size_eq, Function.update_self]
    have hle : item.origin ≤ state.position := ((hp.close_sound hg).fits item hi).choose_spec.2.2
    have hf := (called_close hp hg hc state.position item hcl).exists_form ((hs.founded hcl).derives hs hg) hle hn
    have hw : word kinds 0 state.position = kinds.toList.take state.position := by
      rw [word, drop_zero, Nat.sub_zero]
    rwa [hw] at hf
  · intro hfl
    rw [← h.column_read hg]
    exact (faithful_read hg kinds bound).waits_of_mayFollow hg hp.le_size hfl

/-! ## The list of expected kinds -/

private theorem mem_expected_iff (hc : column.Coherent grammar) :
    kind ∈ expected column ↔ ∃ item ∈ column.items, grammar.next? item = some (.terminal kind) := by
  have hk : kind ∈ expected column ↔ FlatSymbol.terminal kind ∈ column.waits := by
    unfold expected
    rw [mem_mergeSort, mem_filterMap]
    constructor
    · rintro ⟨symbol, hs, hkn⟩
      cases symbol with
      | terminal found =>
        cases hkn
        exact Std.HashMap.mem_keys.1 hs
      | nonterminal name => cases hkn
    · intro hm
      exact ⟨.terminal kind, Std.HashMap.mem_keys.2 hm, rfl⟩
  rw [hk, ← Std.HashMap.contains_iff_mem]
  exact hc.contains_waits_iff

/-- The expected kinds are sorted, and none is repeated. -/
private theorem pairwise_expected (column : Column) : (expected column).Pairwise (· < ·) := by
  have hs : (expected column).Pairwise (· ≤ ·) := by
    have hsr := @pairwise_mergeSort _ (fun first second : String => decide (first ≤ second))
      (fun _ _ _ h h' => decide_eq_true (String.le_trans (of_decide_eq_true h) (of_decide_eq_true h')))
      (fun first second => by simpa using String.le_total first second)
    exact (hsr _).imp of_decide_eq_true
  have hd : (expected column).Nodup := by
    refine (mergeSort_perm _ _).nodup_iff.2 (pairwise_filterMap.2 ?_)
    refine Std.HashMap.nodup_keys.imp fun {first second} hne kind hf other hsc hsa => hne ?_
    cases first <;> cases second <;> simp_all
  refine List.Pairwise.imp₂ (fun first second hle hne => ?_) hs hd
  exact String.not_le.1 fun hge => hne (String.le_antisymm hle hge)

/-! ## Before the first gap -/

/-- Reading came without a gap to every position before one to which it came so. -/
private theorem Visits.exists_before (h : Visits grammar kinds bound state) (hg : state.gaps = [])
    (hle : position ≤ state.position) :
    ∃ before, Visits grammar kinds bound before ∧ before.gaps = [] ∧ before.position = position := by
  induction h with
  | refl => exact ⟨_, .refl, hg, (Nat.le_zero.1 hle).symm⟩
  | @tail state next hv hn ih =>
    by_cases hs : position = next.position
    · exact ⟨next, hv.tail hn, hg, hs.symm⟩
    · rcases State.next?_cases hn with hsc | ⟨-, target, -, rfl⟩
      · obtain ⟨-, hp, heq, -⟩ := State.of_scan? hsc
        exact ih (heq ▸ hg) (by omega)
      · simp [State.skipTo] at hg

/-- Reading came without a gap to where the first gap begins. -/
private theorem Visits.exists_first (h : Visits grammar kinds bound state) {gap : Gap}
    (hgp : state.gaps.head? = some gap) :
    ∃ before, Visits grammar kinds bound before ∧ before.gaps = [] ∧ before.position = gap.start := by
  induction h with
  | refl => cases hgp
  | @tail state next hv hn ih =>
    rcases State.next?_cases hn with hs | ⟨-, target, -, rfl⟩
    · obtain ⟨-, -, hg, -⟩ := State.of_scan? hs
      exact ih (hg ▸ hgp)
    · cases hg : state.gaps with
      | nil =>
        simp only [State.skipTo, hg, nil_append, head?_cons, Option.some.injEq] at hgp
        exact ⟨state, hv, hg, by rw [← hgp]⟩
      | cons first rest =>
        simp only [State.skipTo, hg, cons_append, head?_cons] at hgp
        exact ih (by rw [hg, head?_cons, hgp])

end Chart

namespace Forest

open Chart (State Visits)

variable {description : Description} {grammar : Grammar} {tokens : List Token} {cfg : Config}

/-- A sorted list, without repetitions, of the kinds that may follow. -/
structure LooksAhead (grammar : Grammar) (before expected : List String) : Prop where
  sorted : expected.Pairwise (· < ·)
  mem_iff : ∀ kind, kind ∈ expected ↔ grammar.MayFollow before kind

/-- Where reading comes to its first stand: at a gap, where it stops, or at the end. -/
def firstStand (tokens : List Token) (forest : Forest) : Nat :=
  ((forest.chart.gaps.head?.map (·.start)).or forest.chart.stopped).getD (meaningful tokens).size

private theorem exists_visits_firstStand (hg : grammar.Tabulated) (tokens : List Token) (cfg : Config) :
    ∃ state, Visits grammar (meaningfulKinds tokens) cfg.recoverySkipBound state ∧ state.gaps = [] ∧
      state.position = firstStand tokens (parse grammar tokens cfg) := by
  obtain ⟨last, hl, -, hc⟩ := exists_last_parse hg tokens cfg
  unfold firstStand
  rw [hc]
  cases hgp : last.gaps with
  | nil =>
    have hle := (hl.reaches.progress hg).le_size
    refine ⟨last, hl, hgp, ?_⟩
    rw [← size_meaningfulKinds]
    by_cases hlt : last.position < (meaningfulKinds tokens).size
    · simp [State.chart, hgp, hlt]
    · have heq : last.position = (meaningfulKinds tokens).size := by omega
      simp [State.chart, hgp, heq]
  | cons gap rest =>
    obtain ⟨before, hb, hn, hs⟩ := hl.exists_first (by rw [hgp, head?_cons])
    exact ⟨before, hb, hn, by simp [State.chart, hgp, hs]⟩

/-- Up to the first stand, the chart waits for what may follow. -/
private theorem looksAhead_of_le {position : Nat} (hg : grammar.Tabulated)
    (hle : position ≤ firstStand tokens (parse grammar tokens cfg)) :
    LooksAhead grammar ((meaningfulKinds tokens).toList.take position)
      (Chart.expected ((parse grammar tokens cfg).chart.column position)) := by
  obtain ⟨stand, hs, hn, hp⟩ := exists_visits_firstStand hg tokens cfg
  obtain ⟨state, hv, hgp, rfl⟩ := hs.exists_before hn (hp ▸ hle)
  have hc := ((hv.reaches.progress hg).close_sound hg).coherent
  rw [(parse_keepsake grammar tokens cfg).chart_eq, hv.column_read hg]
  exact ⟨Chart.pairwise_expected _, fun kind =>
    (Chart.mem_expected_iff hc).trans (hv.waits_iff_mayFollow hg hgp)⟩

/-- The end of the reading is about where it stopped, or about the end of the tokens. -/
private theorem expected_terminalProblem (tokens : Array Token) (chart : Chart) (start : Nat) :
    (terminalProblem grammar tokens chart start).expected =
      Chart.expected (chart.column (chart.stopped.getD tokens.size)) := by
  unfold terminalProblem
  cases chart.stopped <;> rfl

/-- The first problem is about the first stand, unless it is that of the end after a gap. -/
private theorem Outcome.expected_of_head? {forest : Forest} {problem : Problem} (h : Outcome grammar tokens forest)
    (ho : forest.chart.gaps.Pairwise fun gap later => gap.start < later.start)
    (hp : forest.problems.head? = some problem) (ht : problem.terminal → forest.chart.gaps = []) :
    problem.expected = Chart.expected (forest.chart.column (firstStand tokens forest)) := by
  unfold firstStand
  cases hg : forest.chart.gaps with
  | nil =>
    cases h with
    | complete _ _ _ _ hpr => simp [hpr, hg] at hp
    | partly _ _ _ hpr =>
      have he : terminalProblem grammar (meaningful tokens) forest.chart (forest.parsed.getD 0) = problem := by
        simpa [hpr, hg] using hp
      rw [← he, expected_terminalProblem, head?_nil, Option.map_none, Option.none_or]
  | cons gap rest =>
    rw [hg, pairwise_cons] at ho
    have hf : gapProblem grammar (meaningful tokens) forest.chart gap = problem := by
      cases h with
      | complete _ _ _ _ hpr => simpa [hpr, hg] using hp
      | partly _ _ _ hpr =>
        by_cases hlt : gap.start < forest.parsed.getD 0
        · simpa [hpr, hg, hlt] using hp
        · -- the other gaps begin later, so that only the end is reported
          have hn : (gap :: rest).filter (fun gap => gap.start < forest.parsed.getD 0) = [] := by
            rw [filter_eq_nil_iff]
            intro other hot
            rcases mem_cons.1 hot with rfl | hot
            · simpa using hlt
            · have := ho.1 other hot
              simp
              omega
          have he : terminalProblem grammar (meaningful tokens) forest.chart (forest.parsed.getD 0) = problem := by
            simpa [hpr, hg, hn] using hp
          have hnl := ht (he ▸ terminal_terminalProblem ..)
          rw [hg] at hnl
          cases hnl
    rw [← hf]
    rfl

/-- Up to where reading first comes to a stand, the list of expected kinds is sorted, without repetitions, and has
exactly the kinds that come next in a sentential form after the tokens before. The first problem has the list for that
place, unless it is the end of the reading after a gap. -/
theorem parse_expects_exactly (hbuild : Grammar.build description = .ok grammar) (tokens : List Token)
    (config : Config) :
    (∀ position ≤ firstStand tokens (parse grammar tokens config),
      LooksAhead grammar ((meaningfulKinds tokens).toList.take position)
        (Chart.expected ((parse grammar tokens config).chart.column position))) ∧
    ∀ problem, (parse grammar tokens config).problems.head? = some problem →
      (problem.terminal → (parse grammar tokens config).chart.gaps = []) → LooksAhead grammar
          ((meaningfulKinds tokens).toList.take (firstStand tokens (parse grammar tokens config)))
          problem.expected := by
  have hg := (built_of_build hbuild).tabulated
  refine ⟨fun position hle => looksAhead_of_le hg hle, fun problem hp ht => ?_⟩
  have ho : (parse grammar tokens config).chart.gaps.Pairwise fun gap later => gap.start < later.start := by
    obtain ⟨last, hl, -, hc⟩ := exists_last_parse hg tokens config
    have hs := hl.spaced hg
    rw [hc]
    exact hs.apart.imp_of_mem fun hgp _ hlt => Nat.lt_trans (hs.within _ hgp).1 hlt
  rw [(parse_outcome grammar tokens config).expected_of_head? ho hp ht]
  exact looksAhead_of_le hg (Nat.le_refl _)

/-- Before anything else, the cyclic grammar expects its token. -/
theorem parse_expects_exactly_of_loop : ∃ grammar, Grammar.build Grammar.loop = .ok grammar ∧
    "a" ∈ Chart.expected ((parse grammar [] {}).chart.column 0) := by
  obtain ⟨grammar, hb⟩ := exists_build_loop
  obtain ⟨one, hm, hl, hs⟩ := (built_of_build hb).exists_alternative_loop
  have hst := Grammar.Rewrites.replace [] [] hm
  rw [hl, hs] at hst
  exact ⟨grammar, hb, (((parse_expects_exactly hb [] {}).1 0 (Nat.zero_le _)).mem_iff "a").2 ⟨[], .single hst⟩⟩

end Forest

end TreeLint
