import TreeLint.Proofs.Accounting
import TreeLint.Proofs.Preferences
import TreeLint.Proofs.TriviaIndependence

/-!
# Chains of operators

A nonterminal that is an operand or two of itself with an operator between them has as many derivations of a chain of
operands as there are ways to put brackets. Which one is selected depends on the associativity of the second alternative
alone.

* `Chains.split`: at every phrase of more than one operand, the last part begins as late as it can, or as early as it
  can if the alternative is right associative;
* `Tree.chain_is_comb`: so the tree of a chain is a comb, of whatever length the chain is.
-/

namespace TreeLint

open List Grammar Forest Draft

open Chart (Begun Item Link Faithful Sane)

/-- The kinds of operands with so many operators between them. -/
def chainKinds (atom op : String) : Nat → List String
  | 0 => [atom]
  | count + 1 => atom :: op :: chainKinds atom op count

private theorem length_chainKinds (atom op : String) (count : Nat) :
    (chainKinds atom op count).length = 2 * count + 1 := by
  induction count with
  | zero => rfl
  | succ count ih => rw [chainKinds, length_cons, length_cons, ih]; omega

private theorem chainKinds_append (atom op : String) (first second : Nat) :
    chainKinds atom op first ++ op :: chainKinds atom op second = chainKinds atom op (first + second + 1) := by
  induction first with
  | zero => rw [Nat.zero_add]; rfl
  | succ first ih =>
    rw [show first + 1 + second + 1 = first + second + 1 + 1 by omega, chainKinds, chainKinds, ← ih]
    rfl

def Outline.operand (name atom : String) (position : Nat) : Outline :=
  .node name [.leaf atom position]

/-- The outline of a chain in which every right operand is a single one. -/
def Outline.leftComb (name atom op : String) : Nat → Outline
  | 0 => operand name atom 0
  | count + 1 => .node name [leftComb name atom op count, .leaf op (2 * count + 1), operand name atom (2 * count + 2)]

/-- The outline of a chain from a position on in which every left operand is a single one. -/
def Outline.rightComb (name atom op : String) (start : Nat) : Nat → Outline
  | 0 => operand name atom start
  | count + 1 => .node name [operand name atom start, .leaf op (start + 1), rightComb name atom op (start + 2) count]

/-! ## Parts of derivations -/

namespace Derivation

variable {grammar : Grammar} {kinds : Array String} {first last : Nat} {symbol : FlatSymbol}
  {symbols : List FlatSymbol} {parts : List Derivation}

theorem Adjacent.length_le (h : Adjacent first last parts) (hp : ∀ part ∈ parts, part.start < part.stop) :
    first + parts.length ≤ last := by
  induction h with
  | nil => exact Nat.le_refl _
  | cons part _ ih =>
    rw [forall_mem_cons] at hp
    have := ih hp.2
    rw [length_cons]
    omega

private theorem eq_token {part : Derivation} {kind : String} (h : part.symbol? kinds = some (.terminal kind)) :
    part = .token part.start ∧ kinds.getD part.start "" = kind := by
  cases part with
  | token pos =>
    cases h
    exact ⟨rfl, rfl⟩
  | phrase | empty | skipped => cases h

private theorem Fits.eq_singleton {kind : String} (h : Fits kinds first last [.terminal kind] parts)
    (hv : ∀ part ∈ parts, part.Valid grammar kinds []) :
    parts = [.token first] ∧ last = first + 1 ∧ kinds.getD first "" = kind := by
  obtain ⟨part, rest, rfl, rfl, hs, hr⟩ := h.exists_cons hv
  rw [forall_mem_cons] at hv
  obtain ⟨ht, hk⟩ := eq_token hs
  obtain ⟨rfl, hst⟩ := hr.eq_nil hv.2
  refine ⟨by rw [← ht], ?_, hk⟩
  rw [← hst, ht]
  rfl

end Derivation

/-! ## The flat grammar -/

def single (name atom : String) : FlatAlternative :=
  { lhs := name, symbols := [.terminal atom], id := 0, rank := 0 }

def double (name op : String) (assoc : Assoc) : FlatAlternative :=
  { lhs := name, symbols := [.nonterminal name, .terminal op, .nonterminal name], assoc, id := 1, rank := 1 }

/-- A grammar of chains. -/
structure Chains (grammar : Grammar) (name atom op : String) (assoc : Assoc) : Prop where
  tabulated : grammar.Tabulated
  ranked : grammar.Ranked
  start_eq : grammar.start = name
  alternatives_eq : grammar.alternatives = #[single name atom, double name op assoc]
  wrap_eq : ∀ drafts, wrap grammar name drafts = [.node name drafts]

namespace Chains

variable {grammar : Grammar} {name atom op : String} {assoc : Assoc} (hg : Chains grammar name atom op assoc)

include hg

theorem mem_iff {alt : FlatAlternative} : alt ∈ grammar.alternatives.toList ↔
    alt = single name atom ∨ alt = double name op assoc := by
  simp [hg.alternatives_eq]

private theorem single_mem : single name atom ∈ grammar.alternatives.toList :=
  hg.mem_iff.2 (.inl rfl)

private theorem double_mem : double name op assoc ∈ grammar.alternatives.toList :=
  hg.mem_iff.2 (.inr rfl)

private theorem lhs_eq {alt : FlatAlternative} (h : alt ∈ grammar.alternatives.toList) :
    alt.lhs = name := by
  rcases hg.mem_iff.1 h with rfl | rfl <;> rfl

private theorem mem_alternativesOf {alt : FlatAlternative} (h : alt ∈ grammar.alternatives.toList) :
    alt ∈ grammar.alternativesOf name :=
  mem_alternativesOf_iff.2 ⟨h, hg.lhs_eq h⟩

private theorem not_derivesItself (name : String) : ¬ grammar.DerivesItself name := by
  refine not_derivesItself_of_terminal (fun alt hm => ?_) name
  rcases hg.mem_iff.1 hm with rfl | rfl
  · exact ⟨atom, mem_singleton_self _⟩
  · exact ⟨op, mem_cons_of_mem _ mem_cons_self⟩

private theorem generates (count : Nat) : grammar.Generates name (chainKinds atom op count) := by
  have ho : grammar.Generates name [atom] :=
    generates_iff.2 ⟨_, hg.single_mem, rfl, .terminal .nil⟩
  induction count with
  | zero => exact ho
  | succ count ih => exact generates_iff.2 ⟨_, hg.double_mem, rfl, ho.append (.terminal ih)⟩

/-! ## The chart -/

/-- Where chains lie on both sides of an operator, the chain of both may be split there. -/
private theorem split_mem {kinds : Array String} {chart : Chart} (h : Faithful grammar kinds chart)
    {start first second : Nat}
    (hb : Begun grammar chart.column name start)
    (ha : chainKinds atom op first ++ op :: chainKinds atom op second <+: kinds.toList.drop start) :
    Begun grammar chart.column name (start + (2 * first + 2)) ∧ .phrase (start + (2 * first + 2)) name ∈
        Forest.linksOf chart (start + (2 * first + 2) + (2 * second + 1)) ((double name op assoc).complete start) := by
  rw [append_cons] at ha
  obtain ⟨hfr, hbc⟩ := Chart.ahead_append ha
  have hln : (chainKinds atom op first ++ [op]).length = 2 * first + 2 := by
    rw [length_append, length_chainKinds]
    rfl
  have he : Item.Expects grammar ⟨1, 0, start⟩ ([.nonterminal name, .terminal op] ++ [.nonterminal name]) :=
    Item.expects_start hg.tabulated hg.double_mem start
  have hw := h.advance hg.tabulated ((hg.generates first).append (.terminal .nil))
    (hb _ (hg.mem_alternativesOf hg.double_mem)) (he.take [.nonterminal name, .terminal op]) hfr
  rw [hln] at hw hbc
  have hn : grammar.next? ⟨1, 2, start⟩ = some (.nonterminal name) := by
    rw [Grammar.next?, hg.alternatives_eq]
    rfl
  have hb' : Begun grammar chart.column name (start + (2 * first + 2)) := fun alt hm => by
    obtain ⟨hm, hlh⟩ := mem_alternativesOf_iff.1 hm
    exact h.predict hw hm (hlh ▸ hn)
  obtain ⟨alt, hm, -, hd⟩ := generates_iff.1 (hg.generates second)
  have hwh := h.advance hg.tabulated hd (hb' alt (hg.mem_alternativesOf hm)) (Item.expects_start hg.tabulated hm _) hbc
  rw [length_chainKinds] at hwh
  have hlk := hg.tabulated.getElem?_id hm
  have hlh : grammar.lhsOf ⟨alt.id, 0 + alt.symbols.length, start + (2 * first + 2)⟩ = name :=
    (lhsOf_eq hlk).trans (hg.lhs_eq hm)
  refine ⟨hb', (h.closed _ _ hwh ((⟨1, 2, start⟩ : Item).advance, some (.phrase _ name)) ?_).2 _ rfl⟩
  refine Chart.mem_consequences_iff.2 (.inl ⟨by simp [Grammar.next?, hlk], by simp, ⟨1, 2, start⟩, ?_, by rw [hlh]⟩)
  exact (h.sane.sound _).coherent.mem_waiting_iff.2 ⟨hw, by rw [hlh]; exact hn⟩

/-! ## Parts -/

variable {kinds : Array String} {first last : Nat} {symbols : List FlatSymbol} {parts : List Derivation}

/-- No alternative is empty, so every derivation stands over something. -/
theorem start_lt_stop {deriv : Derivation} (h : deriv.Valid grammar kinds []) :
    deriv.start < deriv.stop := by
  induction h with
  | token => exact Nat.lt_succ_self _
  | phrase _ hlt => exact hlt
  | @empty alt pos parts hm hft _ ih =>
    have hln := hft.adjacent.length_le ih
    have hp : parts ≠ [] := by
      rintro rfl
      rcases hg.mem_iff.1 hm with rfl | rfl <;> cases hft.spells
    have := length_pos_of_ne_nil hp
    omega
  | skipped hgp => cases hgp

variable {chart : Chart} {memo : Memo}

private theorem exists_choice {part : Derivation} (hv : part.Valid grammar kinds [])
    (he : Expanded grammar memo part) {found : String} (h : part.symbol? kinds = some (.nonterminal found)) :
    ∃ choice, part = .phrase found part.start part.stop choice.parts.reverse ∧
      choice? memo (.phrase found part.start part.stop) = some choice := by
  cases he with
  | token | skipped => cases h
  | phrase hc =>
    cases h
    exact ⟨_, rfl, hc⟩
  | empty => exact absurd (hg.start_lt_stop hv) (Nat.lt_irrefl _)

/-- What has been selected in a chart without gaps. -/
structure Selected (grammar : Grammar) (kinds : Array String) (chart : Chart) (memo : Memo) : Prop where
  sane : Sane grammar kinds chart.column []
  principled : Principled grammar chart memo
  correct : Correct grammar kinds [] memo

omit hg in
theorem skips_eq_zero {choice : Choice} (h : Selects grammar kinds [] memo first last symbols choice) :
    choice.skips = 0 := by
  rw [h.skips]
  exact Derivation.skipsOfAll_eq_zero fun part hp => (h.valid part (mem_reverse.1 hp)).skips_eq_zero

omit hg in
private theorem split_le_of_preferenceKey_le {split other order otherOrder : Nat}
    (h : preferenceKey assoc 0 split order ≤ preferenceKey assoc 0 other otherOrder) :
    if assoc = .right then split ≤ other else other ≤ split := by
  have hle := (Prod.Lex.toLex_le_toLex.1 h).elim le_of_lt fun hs => le_of_eq hs.1
  rw [Prod.Lex.toLex_le_toLex] at hle
  split
  all_goals
    next hr =>
      simp only [hr, if_true, if_false] at hle
      omega

private theorem exists_operands (hft : Derivation.Fits kinds first last (double name op assoc).symbols parts)
    (hv : ∀ part ∈ parts, part.Valid grammar kinds []) (he : ∀ part ∈ parts, Expanded grammar memo part) :
    ∃ middle left right, parts = [.phrase name first middle left.parts.reverse, .token middle,
        .phrase name (middle + 1) last right.parts.reverse] ∧
      first < middle ∧ middle + 1 < last ∧ kinds.getD middle "" = op ∧
      choice? memo (.phrase name first middle) = some left ∧
      choice? memo (.phrase name (middle + 1) last) = some right := by
  obtain ⟨part, rest, rfl, rfl, hs, hr⟩ := hft.exists_cons hv
  rw [forall_mem_cons] at hv he
  obtain ⟨operator, rest, rfl, hm, hs', hr⟩ := hr.exists_cons hv.2
  rw [forall_mem_cons] at hv he
  obtain ⟨part', rest, rfl, hst, hs'', hr⟩ := hr.exists_cons hv.2.2
  rw [forall_mem_cons] at hv he
  obtain ⟨rfl, hsto⟩ := hr.eq_nil hv.2.2.2
  obtain ⟨left, hlf, hc⟩ := hg.exists_choice hv.1 he.1 hs
  obtain ⟨right, hrg, hc'⟩ := hg.exists_choice hv.2.2.1 he.2.2.1 hs''
  obtain ⟨ht, hk⟩ := Derivation.eq_token hs'
  have hn : part'.start = part.stop + 1 := by
    rw [hst, ht, hm]
    rfl
  rw [hm] at ht hk
  rw [hn, hsto] at hrg hc'
  have hlt := hg.start_lt_stop hv.2.2.1
  exact ⟨part.stop, left, right, by rw [← hlf, ← ht, ← hrg], hg.start_lt_stop hv.1, by omega, hk, hc, hc'⟩

/-- The item of a whole phrase takes the least of its links. -/
private theorem split_least (h : Selected grammar kinds chart memo) {start split stop other : Nat} {choice : Choice}
    {inner before : List Derivation}
    (hi : choice? memo (.item stop ((double name op assoc).complete start)) = some choice)
    (hp : choice.parts = .phrase name split stop inner :: before)
    (ho : .phrase other name ∈ linksOf chart stop ((double name op assoc).complete start)) :
    if assoc = .right then split ≤ other else other ≤ split := by
  have he : ExactAt grammar chart memo (.item stop ((double name op assoc).complete start)) :=
    h.principled.exactAt_of_isSome (acyclic_of_not_derivesItself h.sane hg.tabulated hg.not_derivesItself _)
      (Option.isSome_of_eq_some hi)
  rcases he.item_cases with ⟨-, hd, -⟩ | ⟨order, link, found, hln, ht, hfn, hls⟩
  · cases hd
  · rw [hi, Option.some.injEq] at hfn
    subst hfn
    obtain ⟨_, -, hs⟩ :=
      selects_throughLink h.correct h.sane hg.tabulated (mem_of_getElem? hln) ht
    obtain ⟨-, last, _, hla, rfl, -⟩ :=
      exists_of_throughLink h.sane hg.tabulated (mem_of_getElem? hln) ht
    obtain rfl : _ = last := (List.cons.inj (hp.symm.trans hla)).1
    obtain ⟨otherOrder, ho⟩ := mem_iff_getElem?.1 ho
    obtain ⟨otherChoice, hot, hle⟩ := hls otherOrder _ ho
    obtain ⟨_, -, hoth⟩ :=
      selects_throughLink h.correct h.sane hg.tabulated (mem_of_getElem? ho) hot
    have ha : (grammar.alternatives.getD 1 default).assoc = assoc := by
      rw [hg.alternatives_eq]
      rfl
    rw [skips_eq_zero hs, skips_eq_zero hoth] at hle
    exact split_le_of_preferenceKey_le (ha ▸ hle)

/-- A phrase is one operand, or it has two phrases with an operator between them. Of all places where it may be split,
the last one is taken, or the first one if the alternative is right associative. -/
theorem split (h : Selected grammar kinds chart memo) {start stop : Nat} {choice : Choice}
    (hc : choice? memo (.phrase name start stop) = some choice) :
    (choice.parts.reverse = [.token start] ∧ stop = start + 1 ∧ kinds.getD start "" = atom) ∨
    ∃ middle left right, choice.parts.reverse = [.phrase name start middle left.parts.reverse, .token middle,
        .phrase name (middle + 1) stop right.parts.reverse] ∧
      start < middle ∧ middle + 1 < stop ∧ kinds.getD middle "" = op ∧
      choice? memo (.phrase name start middle) = some left ∧
      choice? memo (.phrase name (middle + 1) stop) = some right ∧
      ∀ other, .phrase other name ∈ linksOf chart stop ((double name op assoc).complete start) →
        if assoc = .right then middle + 1 ≤ other else other ≤ middle + 1 := by
  have ha := acyclic_of_not_derivesItself h.sane hg.tabulated hg.not_derivesItself
  obtain ⟨hi, alt, hof, heq, -⟩ := h.principled.solves_phrase h.sane hg.ranked (ha _) hc
  have hm := (mem_alternativesOf_iff.1 hof).1
  rw [heq] at hi
  obtain ⟨symbols, ⟨same, hs, rfl⟩, hsl⟩ := h.correct _ _ hi
  rw [hg.tabulated.getElem?_id hm] at hs
  cases hs
  have hft := hsl.fits
  rw [take_length] at hft
  have hv := fun part hp => hsl.valid part (mem_reverse.1 hp)
  have he := fun part hp => hsl.expanded part (mem_reverse.1 hp)
  rcases hg.mem_iff.1 hm with rfl | rfl
  · exact .inl (Derivation.Fits.eq_singleton hft hv)
  · obtain ⟨middle, left, right, hpr, hlt, hlt', hk, hlf, hr⟩ := hg.exists_operands hft hv he
    refine .inr ⟨middle, left, right, hpr, hlt, hlt', hk, hlf, hr, fun other ho => ?_⟩
    exact hg.split_least h hi (reverse_eq_iff.1 hpr) ho

/-! ## Combs -/

section Outlines

variable {tokens : Array Token} {significant : Array Nat} {count start stop : Nat} {choice : Choice}
  (h : Selected grammar kinds chart memo) (hf : Faithful grammar kinds chart)
  (hl : ∀ pos < kinds.size,
    Outline.ofToken tokens (significant.getD pos 0) = .leaf (kinds.getD pos "") pos)

include h hl

private theorem outline_operand (hs : start < kinds.size) (hst : stop = start + 1)
    (hc : choice? memo (.phrase name start stop) = some choice) :
    (ofDerivation grammar significant (.phrase name start stop choice.parts.reverse)).map (Draft.outline tokens) =
      [.operand name atom start] := by
  rcases hg.split h hc with ⟨hp, -, hk⟩ | ⟨middle, left, right, -, hlt, hlt', -⟩
  · rw [hp, ofDerivation, hg.wrap_eq, ofDerivations, ofDerivations, ofDerivation]
    simp only [append_nil, map_cons, map_nil, Draft.outline, outlineOfAll, hl start hs, hk, Outline.operand]
  · omega

omit h in
private theorem outline_split {middle : Nat} {left right : Choice} {leftOutline rightOutline : Outline}
    (hm : middle < kinds.size) (hk : kinds.getD middle "" = op)
    (hlf : (ofDerivation grammar significant (.phrase name start middle left.parts.reverse)).map
      (Draft.outline tokens) = [leftOutline])
    (hr : (ofDerivation grammar significant (.phrase name (middle + 1) stop right.parts.reverse)).map
      (Draft.outline tokens) = [rightOutline]) :
    (ofDerivation grammar significant (.phrase name start stop [.phrase name start middle left.parts.reverse,
      .token middle, .phrase name (middle + 1) stop right.parts.reverse])).map (Draft.outline tokens) =
        [.node name [leftOutline, .leaf op middle, rightOutline]] := by
  have ht : ofDerivation grammar significant (.token middle) = [.leaf (significant.getD middle 0)] := rfl
  rw [ofDerivation, hg.wrap_eq]
  simp only [ofDerivations, map_cons, map_nil, Draft.outline, outlineOfAll_eq_map,
    map_append, hlf, hr, ht, hl middle hm, hk, append_nil, cons_append,
    nil_append]

include hf

private theorem outline_leftComb (ha : assoc ≠ .right) (hb : Begun grammar chart.column name 0)
    (hk : chainKinds atom op count <+: kinds.toList) (hs : stop = 2 * count + 1)
    (hc : choice? memo (.phrase name 0 stop) = some choice) :
    (ofDerivation grammar significant (.phrase name 0 stop choice.parts.reverse)).map (Draft.outline tokens) =
      [.leftComb name atom op count] := by
  have hsz := hk.length_le
  rw [length_chainKinds, Array.length_toList] at hsz
  induction count generalizing stop choice with
  | zero => exact hg.outline_operand h hl hsz hs hc
  | succ count ih =>
    rw [← chainKinds_append atom op count 0] at hk
    obtain ⟨-, hln⟩ := hg.split_mem hf hb hk
    rcases hg.split h hc with ⟨-, ho, -⟩ | ⟨middle, left, right, hp, -, hlt, hkn, hlf, hr, hls⟩
    · omega
    · rw [show 0 + (2 * count + 2) + (2 * 0 + 1) = stop by omega] at hln
      have hle := hls _ hln
      rw [if_neg ha] at hle
      obtain rfl : middle = 2 * count + 1 := by omega
      rw [hp]
      exact hg.outline_split hl (by omega) hkn (ih ((prefix_append ..).trans hk) rfl hlf (by omega))
        (hg.outline_operand h hl (by omega) (by omega) hr)

private theorem outline_rightComb (ha : assoc = .right) (hb : Begun grammar chart.column name start)
    (hk : chainKinds atom op count <+: kinds.toList.drop start) (hs : stop = start + (2 * count + 1))
    (hc : choice? memo (.phrase name start stop) = some choice) :
    (ofDerivation grammar significant (.phrase name start stop choice.parts.reverse)).map (Draft.outline tokens) =
      [.rightComb name atom op start count] := by
  have hsz := hk.length_le
  rw [length_chainKinds, length_drop, Array.length_toList] at hsz
  induction count generalizing start choice with
  | zero => exact hg.outline_operand h hl (by omega) hs hc
  | succ count ih =>
    have hah : chainKinds atom op 0 ++ op :: chainKinds atom op count <+: kinds.toList.drop start := hk
    obtain ⟨hb', hln⟩ := hg.split_mem hf hb hah
    rcases hg.split h hc with ⟨-, ho, -⟩ | ⟨middle, left, right, hp, hlt, -, hkn, hlf, hr, hls⟩
    · omega
    · rw [show start + (2 * 0 + 2) + (2 * count + 1) = stop by omega] at hln
      have hle := hls _ hln
      rw [if_pos ha] at hle
      obtain rfl : middle = start + 1 := by omega
      rw [hp]
      exact hg.outline_split hl (by omega) hkn (hg.outline_operand h hl (by omega) rfl hlf)
        (ih hb' (Chart.ahead_cons (Chart.ahead_cons hk).2).2 (by omega) hr (by omega))

end Outlines

/-- A chain is read without gaps, and a derivation of all of it is selected. -/
private theorem selected_parse {list : List Token} {count : Nat}
    (hk : (meaningfulKinds list).toList = chainKinds atom op count) (cfg : Config) :
    (Forest.parse grammar list cfg).problems = [] ∧ (Forest.parse grammar list cfg).unparsedFrom = none ∧
      Selected grammar (meaningfulKinds list) (Forest.parse grammar list cfg).chart
        (Forest.parse grammar list cfg).memo ∧
      ∃ choice, (Forest.parse grammar list cfg).root? = some (.phrase name 0 (2 * count + 1) choice.parts.reverse) ∧
        choice? (Forest.parse grammar list cfg).memo (.phrase name 0 (2 * count + 1)) = some choice := by
  have hs : (meaningful list).size = 2 * count + 1 := by
    rw [← size_meaningfulKinds, ← Array.length_toList, hk, length_chainKinds]
  have hf := faithful_parse hg.tabulated list cfg
  have hgn : grammar.Generates grammar.start (meaningfulKinds list).toList := by
    rw [hg.start_eq, hk]
    exact hg.generates count
  obtain ⟨hgp, hst, ha⟩ := hf.accepts_of_generates hg.tabulated hgn
  have hp := (problems_eq_nil_iff grammar list cfg).2 ⟨hgp, hst, size_meaningfulKinds _ ▸ ha⟩
  obtain ⟨hpr, hu, -⟩ := complete_of_problems_eq_nil hg.tabulated hp
  rw [hs] at hpr
  obtain ⟨deriv, hr, -, hd⟩ := exists_root?_eq hg.tabulated hpr
  obtain ⟨hm, hfn⟩ := memo_eq_solve hg.tabulated hpr (Nat.succ_pos _)
  have hsn := hf.sane
  rw [hgp] at hsn hd
  obtain ⟨choice, heq, hc⟩ := hg.exists_choice hd.valid hd.expanded hd.symbol_eq
  rw [hd.start_eq, hd.stop_eq, hg.start_eq] at heq hc
  refine ⟨hp, hu, ⟨hsn, ?_, ?_⟩, choice, by rw [hr, ← heq], hc⟩
  · exact hm ▸ (principled_solve hsn hg.tabulated hfn (Nat.succ_pos _)).1
  · exact hm ▸ correct_solve hsn hg.tabulated hfn (Nat.succ_pos _)

end Chains

/-! ## Trees of chains -/

section Trees

variable {description : Description} {grammar : Grammar} {name atom op : String}
  {operand operator : Grammar.Symbol} {assoc : Assoc}

/-- Where the significant tokens form a sentence, every token has been matched. -/
private theorem lexicalProblems_eq_nil (hb : Built description grammar) {src : Source}
    (hgn : grammar.Generates grammar.start
      (((tokenize grammar src).filter fun token => !token.trivia).map (·.kind))) :
    lexicalProblems (tokenize grammar src) = [] := by
  refine filterMap_eq_nil_iff.2 fun token ht => if_neg fun hu => ?_
  rw [beq_iff_eq] at hu
  rcases kind_of_mem_reservedKinds hb ht (by rw [hu]; decide) with hbl | ⟨-, htr⟩
  · rw [hu] at hbl
    exact absurd hbl (by decide)
  · have hm : token ∈ (tokenize grammar src).filter fun token => !token.trivia :=
      mem_filter.2 ⟨ht, by rw [htr]; rfl⟩
    have hn := hb.subset_tokenNames hgn (mem_map_of_mem hm)
    rw [hu] at hn
    exact absurd ((hb.tokenNames_checks hn).2 (by decide)) (by decide)

private theorem ofToken_significant (grammar : Grammar) (tokens : List Token) (cfg : Config) :
    ∀ pos < (meaningfulKinds tokens).size,
      Outline.ofToken tokens.toArray ((Forest.parse grammar tokens cfg).significant.getD pos 0) =
        .leaf ((meaningfulKinds tokens).getD pos "") pos := by
  intro pos h
  have hp : pos < (significantPlaces tokens).length := length_significantPlaces tokens ▸ h
  have he := congrArg (·[pos]?) (map_ofToken_eq_zipWith tokens)
  have hs : (Forest.parse grammar tokens cfg).significant = (significantPlaces tokens).toArray :=
    (parse_keepsake grammar tokens cfg).significant_eq
  rw [hs, Array.getD_eq_getD_getElem?, Array.getD_eq_getD_getElem?, getElem?_toArray,
    getElem?_eq_getElem hp, Array.getElem?_eq_getElem h]
  simpa [getElem?_zipWith, hp, h] using he

/-- A production whose nodes are an operand or two of themselves with an operator between them. -/
def chainProduction (name : String) (operand operator : Grammar.Symbol) (assoc : Assoc) : Production :=
  { name, alternatives := [{ symbols := [operand] }, { symbols := [.ref name, operator, .ref name], assoc }] }

private theorem Grammar.Built.chains (hb : Built description grammar)
    (hp : description.productions = [chainProduction name operand operator assoc])
    (ho : operand = .literal atom ∨ operand = .ref atom) (ha : atom ∈ description.tokenNames)
    (hope : operator = .literal op ∨ operator = .ref op) (hop : op ∈ description.tokenNames) :
    Chains grammar name atom op assoc := by
  have hn : description.names = [name] := by rw [Description.names, hp]; rfl
  have hnm : name ∉ description.tokenNames :=
    hb.not_mem_tokenNames (hn ▸ mem_singleton_self name)
  have hfl : ∀ {symbol kind}, symbol = .literal kind ∨ symbol = .ref kind → kind ∈ description.tokenNames →
      flattenSymbol description.tokenNames.contains name 0 symbol = (.terminal kind, [], 0) := by
    rintro symbol kind (rfl | rfl) hk
    · rfl
    · rw [flattenSymbol, contains_iff_mem.2 hk]
      rfl
  have hpr : grammar.production? name = some (chainProduction name operand operator assoc) := by
    rw [production?, hb.productions_eq, hp]
    exact find?_cons_of_pos (beq_self_eq_true name)
  refine ⟨hb.tabulated, hb.ranked, ?_, ?_, fun drafts => ?_⟩
  · exact hb.start_eq.trans (mem_singleton.1 (hn ▸ hb.start_mem))
  · rw [hb.alternatives_eq, hp]
    simp [flatAlternatives, flatten, chainProduction, flattenAlternatives, flattenSymbols,
      hfl ho ha, hfl hope hop, flattenSymbol, hnm, numberRules, single, double]
  · simp [wrap, isInline, isTransparent, hpr, chainProduction]

/-- The tree of a chain of operands has no problems, and it is the left comb, or the right comb if the alternative with
the operator is right associative. -/
theorem Tree.chain_is_comb (hbuild : Grammar.build description = .ok grammar)
    (hproductions : description.productions = [chainProduction name operand operator assoc])
    (hoperand : operand = .literal atom ∨ operand = .ref atom) (hatom : atom ∈ description.tokenNames)
    (hoperator : operator = .literal op ∨ operator = .ref op) (hop : op ∈ description.tokenNames)
    {source : Source} {count : Nat}
    (hkinds : ((tokenize grammar source).filter fun token => !token.trivia).map (·.kind) = chainKinds atom op count)
    (path : String) (config : Config) :
    (Tree.parse grammar source path config).problems = [] ∧
      (Tree.parse grammar source path config).outline 0 = .node documentKind
        [if assoc = .right then .rightComb name atom op 0 count else .leftComb name atom op count] := by
  have hb := built_of_build hbuild
  have hg := hb.chains hproductions hoperand hatom hoperator hop
  have hgn := hg.start_eq ▸ hkinds ▸ hg.generates count
  have hls : (meaningfulKinds (tokenize grammar source)).toList = chainKinds atom op count := by
    rw [toList_meaningfulKinds, hkinds]
  obtain ⟨hp, hu, hs, choice, hr, hc⟩ := hg.selected_parse hls config
  have hk := parse_keepsake grammar (tokenize grammar source) config
  have hf := faithful_parse hg.tabulated (tokenize grammar source) config
  have hbg : Begun grammar (Forest.parse grammar (tokenize grammar source) config).chart.column name 0 :=
    hg.start_eq ▸ hf.seeded
  have hl := ofToken_significant grammar (tokenize grammar source) config
  have hpr : chainKinds atom op count <+: (meaningfulKinds (tokenize grammar source)).toList :=
    hls ▸ prefix_refl _
  constructor
  · show ((lexicalProblems (tokenize grammar source) ++ _).mergeSort Problem.precedes) = []
    rw [lexicalProblems_eq_nil hb hgn, hp]
    exact mergeSort_nil
  · rw [Tree.parse, Tree.outline_ofForest hg.tabulated, ofForest_eq, hr, hu, hk.grammar_eq]
    simp only [Option.map_some, Option.map_none, Option.getD_some, Option.getD_none, append_nil]
    split
    next hrg => rw [hg.outline_rightComb hs hf hl hrg hbg hpr (by omega) hc]
    next hrg => rw [hg.outline_leftComb hs hf hl hrg hbg hpr rfl hc]

/-- Sums of ones. -/
def ones : Description where
  name := "ones"
  productions := [chainProduction "sum" (.ref "ONE") (.literal "+") .left]
  tokens := [{ name := "ONE", pattern := "1" }]
  suppression := { directive := "x" }

/-- The compiled token rules for sums of ones. -/
def onesScanners : List Scanner :=
  [⟨literalRule "+", { term := .set { tests := [.code 43] } }⟩,
    ⟨{ name := "ONE", pattern := "1" }, { term := .set { tests := [.code 49] } }⟩]

private theorem tokenize_ones (hb : Built ones grammar) :
    ((tokenize grammar (.ofText (Text.ofString "1 + 1+1"))).filter fun token => !token.trivia).map (·.kind) =
      chainKinds "ONE" "+" 2 := by
  have hr : compileRules [] ones.rules = .ok onesScanners := rfl
  have hp : piecesFrom onesScanners (Source.ofText (Text.ofString "1 + 1+1")).glyphs 0 =
      [⟨"ONE", false, 0, 1⟩, ⟨"whitespace", true, 1, 2⟩, ⟨"+", false, 2, 3⟩, ⟨"whitespace", true, 3, 4⟩,
        ⟨"ONE", false, 4, 5⟩, ⟨"+", false, 5, 6⟩, ⟨"ONE", false, 6, 7⟩] := by cbv
  rw [hb.scanners_compiled, Except.ok.injEq] at hr
  rw [tokenize, hr, hp]
  rfl

theorem Tree.comb_of_ones : ∃ grammar, Grammar.build ones = .ok grammar ∧
    (Tree.parse grammar (.ofText (Text.ofString "1 + 1+1")) defaultPath {}).outline 0 =
      .node documentKind [.leftComb "sum" "ONE" "+" 2] := by
  have hok : (Grammar.build ones).isOk = true := by decide +kernel
  obtain ⟨grammar, hb⟩ := exists_eq_ok hok
  have hk := tokenize_ones (built_of_build hb)
  exact ⟨grammar, hb, (Tree.chain_is_comb hb rfl (.inr rfl) (by decide) (.inl rfl) (by decide) hk _ _).2⟩

end Trees

end TreeLint
