import TreeLint.Proofs.GroupReading

/-!
# Names in a checked description

What the checks of a description say about the names in it.

* `Grammar.names_of_check`: the names of productions are different, are not reserved and have no `#` in them;
* `Grammar.Built.tokenNames_checks`: tokens have other names, and of the reserved ones only that of white space;
* `Grammar.Sensible`: the marks of a sequence of symbols have a meaning, and its references are defined;
* `Grammar.Reads.subset_tokenNames`: what symbols stand for consists of kinds of tokens.
-/

namespace TreeLint

open List

variable {name : String} {desc : Grammar.Description} {g : Grammar} {symbols rest : List Grammar.Symbol}

namespace Grammar

/-! ## Names -/

private theorem hash_not_mem_of_isName (h : isName name = true) : '#' ∉ name.toList := by
  unfold isName at h
  cases hc : name.toList with
  | nil => exact not_mem_nil
  | cons first rest =>
    rw [hc, isNameChars, Bool.and_eq_true, Bool.or_eq_true, Bool.and_eq_true, beq_iff_eq] at h
    obtain ⟨hf, hr⟩ := h
    rw [mem_cons, not_or]
    refine ⟨fun heq => absurd (heq ▸ hf) (by decide), fun hm => ?_⟩
    rcases hr with hr | ⟨hl, hr⟩
    · exact absurd (all_eq_true.1 hr _ hm) (by decide)
    · obtain ⟨front, rfl⟩ := getLast?_eq_some_iff.1 hl
      rw [dropLast_concat] at hr
      rcases mem_append.1 hm with hm | hm
      · exact absurd (all_eq_true.1 hr _ hm) (by decide)
      · exact absurd (mem_singleton.1 hm) (by decide)

theorem names_of_check {earlier : List String} {productions : List Production}
    (h : checkProductionNames earlier productions = .ok ()) :
    (productions.map (·.name)).Nodup ∧ ∀ production ∈ productions,
        '#' ∉ production.name.toList ∧ production.name ∉ earlier ∧ production.name ∉ reservedKinds := by
  induction productions generalizing earlier with
  | nil => simp
  | cons first productions ih =>
    simp only [checkProductionNames, bind_eq_ok_iff] at h
    obtain ⟨_, hn, _, hr, _, hnw, hrs⟩ := h
    obtain ⟨hnd, ho⟩ := ih hrs
    simp only [mem_cons, not_or] at ho
    refine ⟨nodup_cons.2 ⟨fun hm => ?_, hnd⟩, forall_mem_cons.2 ⟨?_, fun production hm => ?_⟩⟩
    · obtain ⟨production, hm, heq⟩ := mem_map.1 hm
      exact (ho production hm).2.1.1 heq
    · exact ⟨hash_not_mem_of_isName (Defect.unless_eq_ok_iff.1 hn), by simpa using Defect.unless_eq_ok_iff.1 hnw,
        by simpa using Defect.unless_eq_ok_iff.1 hr⟩
    · exact ⟨(ho production hm).1, (ho production hm).2.1.2, (ho production hm).2.2⟩

theorem Built.not_mem_reservedKinds (h : Built desc g) (hn : name ∈ desc.names) : name ∉ reservedKinds := by
  obtain ⟨production, hm, rfl⟩ := mem_map.1 hn
  exact ((names_of_check h.names_checked).2 production hm).2.2

theorem tokenNames_of_check {names earlier : List String} {rules : List TokenRule}
    (h : checkTokenNames names earlier rules = .ok ()) :
    (rules.map (·.name)).Nodup ∧ ∀ rule ∈ rules, '#' ∉ rule.name.toList ∧ rule.name ∉ earlier ∧ rule.name ∉ names ∧
      (rule.name ∈ reservedKinds → rule.name = whitespaceKind) := by
  induction rules generalizing earlier with
  | nil => simp
  | cons first rules ih =>
    simp only [checkTokenNames, bind_eq_ok_iff] at h
    obtain ⟨_, hn, _, hnw, _, hrs, _, hs, hr⟩ := h
    replace hnw : first.name ∉ earlier := by simpa using Defect.unless_eq_ok_iff.1 hnw
    replace hrs : first.name ∉ reservedKinds ∨ first.name = whitespaceKind := by
      simpa using Defect.unless_eq_ok_iff.1 hrs
    obtain ⟨hnd, ho⟩ := ih hr
    simp only [mem_cons, not_or] at ho
    refine ⟨nodup_cons.2 ⟨fun hm => ?_, hnd⟩, forall_mem_cons.2 ⟨?_, fun rule hm => ?_⟩⟩
    · obtain ⟨rule, hm, heq⟩ := mem_map.1 hm
      exact (ho rule hm).2.1.1 heq
    · exact ⟨hash_not_mem_of_isName (Defect.unless_eq_ok_iff.1 hn), hnw,
        by simpa using Defect.unless_eq_ok_iff.1 hs, fun hm => hrs.resolve_left (absurd hm)⟩
    · exact ⟨(ho rule hm).1, (ho rule hm).2.1.2, (ho rule hm).2.2⟩

theorem checkLiterals_of_mem {names texts : List String} (h : checkLiterals names texts = .ok ()) {text : String}
    (ht : text ∈ texts) : text ∉ names ∧ text ∉ reservedKinds := by
  induction texts with
  | nil => cases ht
  | cons first texts ih =>
    simp only [checkLiterals, bind_eq_ok_iff] at h
    obtain ⟨_, hr, _, hs, hrs⟩ := h
    rcases mem_cons.1 ht with rfl | ht
    · exact ⟨by simpa using Defect.unless_eq_ok_iff.1 hs, by simpa using Defect.unless_eq_ok_iff.1 hr⟩
    · exact ih hrs ht

/-- Tokens do not have the names of productions, and the only reserved name for them is that of white space. -/
theorem Built.tokenNames_checks (h : Built desc g) (hn : name ∈ desc.tokenNames) :
    name ∉ desc.names ∧ (name ∈ reservedKinds → name = whitespaceKind) := by
  obtain ⟨rule, hr, rfl⟩ := mem_map.1 hn
  rcases mem_append.1 hr with hr | hr
  · obtain ⟨text, ht, rfl⟩ := mem_map.1 hr
    obtain ⟨hp, hrs⟩ := checkLiterals_of_mem h.literals_checked ht
    exact ⟨hp, fun hm => absurd hm hrs⟩
  · exact ((tokenNames_of_check h.tokenNames_checked).2 rule hr).2.2

/-- Of the names of tokens, only literals may have the mark of hidden nonterminals. -/
theorem Built.mem_literals_of_hash (h : Built desc g)
    (hn : name ∈ desc.tokenNames) (hh : '#' ∈ name.toList) : name ∈ literals desc.productions := by
  obtain ⟨rule, hr, rfl⟩ := mem_map.1 hn
  rcases mem_append.1 hr with hr | hr
  · obtain ⟨text, ht, rfl⟩ := mem_map.1 hr
    exact ht
  · exact absurd hh ((tokenNames_of_check h.tokenNames_checked).2 rule hr).1

theorem Built.not_mem_tokenNames (h : Built desc g) (hn : name ∈ desc.names) : name ∉ desc.tokenNames :=
  fun ht => (h.tokenNames_checks ht).1 hn

/-! ## Symbols -/

private theorem checkShapes_append {first : List Symbol} (h : checkShapes (first ++ rest) = .ok ()) :
    checkShapes first = .ok () ∧ checkShapes rest = .ok () := by
  induction first with
  | nil => exact ⟨rfl, h⟩
  | cons symbol first ih =>
    rw [cons_append, checkShapes, bind_eq_ok_iff] at h
    obtain ⟨_, hs, hr⟩ := h
    rw [checkShapes, bind_eq_ok_iff]
    exact ⟨⟨_, hs, (ih hr).1⟩, (ih hr).2⟩

private theorem checkShapes_of_mem_flatMap {α : Type} {sequences : List α} {symbolsOf : α → List Symbol}
    (h : checkShapes (sequences.flatMap symbolsOf) = .ok ()) {sequence : α} (hm : sequence ∈ sequences) :
    checkShapes (symbolsOf sequence) = .ok () := by
  induction sequences with
  | nil => cases hm
  | cons first sequences ih =>
    rw [flatMap_cons] at h
    rcases mem_cons.1 hm with rfl | hm
    · exact (checkShapes_append h).1
    · exact ih (checkShapes_append h).2 hm

private theorem checkReferences_of_mem {isDefined : String → Bool} {owner : String} {alts : List Alternative}
    (h : checkAlternatives isDefined owner alts = .ok ()) {alt : Alternative}
    (hm : alt ∈ alts) : checkReferences isDefined owner alt.symbols = .ok () := by
  induction alts with
  | nil => cases hm
  | cons first alts ih =>
    rw [checkAlternatives] at h
    split at h
    · simp only [bind_eq_ok_iff, throw_ne_ok, false_and, exists_false] at h
    · simp only [bind_eq_ok_iff] at h
      obtain ⟨_, hf, hr⟩ := h
      rcases mem_cons.1 hm with rfl | hm
      · exact hf
      · exact ih hr hm

private theorem checkAlternatives_of_mem {isDefined : String → Bool} {productions : List Production}
    (h : checkProductions isDefined productions = .ok ()) {production : Production} (hm : production ∈ productions) :
    checkAlternatives isDefined production.name production.alternatives = .ok () := by
  induction productions with
  | nil => cases hm
  | cons first productions ih =>
    rw [checkProductions, bind_eq_ok_iff] at h
    obtain ⟨_, hf, hr⟩ := h
    rcases mem_cons.1 hm with rfl | hm
    · exact hf
    · exact ih hr hm

/-- A sequence of symbols that passed the checks: its marks have a meaning and its references are defined. -/
def Sensible (description : Description) (owner : String) (symbols : List Symbol) : Prop :=
  checkShapes symbols = .ok () ∧
    checkReferences (fun name => description.tokenNames.contains name || description.names.contains name) owner symbols =
      .ok ()

theorem Built.sensible (h : Built desc g) {production : Production}
    (hp : production ∈ desc.productions) {alt : Alternative}
    (ha : alt ∈ production.alternatives) : Sensible desc production.name alt.symbols :=
  ⟨checkShapes_of_mem_flatMap (checkShapes_of_mem_flatMap h.shapes_checked hp) ha,
    checkReferences_of_mem (checkAlternatives_of_mem h.references_checked hp) ha⟩

variable {owner : String}

theorem Sensible.ref (h : Sensible desc owner (.ref name :: rest)) :
    (name ∈ desc.tokenNames ∨ name ∈ desc.names) ∧ Sensible desc owner rest := by
  obtain ⟨hs, hr⟩ := h
  simp only [checkShapes, checkReferences, checkReference, bind_eq_ok_iff] at hs hr
  obtain ⟨_, -, hs⟩ := hs
  obtain ⟨_, hd, hr⟩ := hr
  exact ⟨by simpa using Defect.unless_eq_ok_iff.1 hd, hs, hr⟩

theorem Sensible.literal {text : String} (h : Sensible desc owner (.literal text :: rest)) :
    Sensible desc owner rest := by
  obtain ⟨hs, hr⟩ := h
  simp only [checkShapes, checkReferences, bind_eq_ok_iff] at hs hr
  obtain ⟨_, -, hs⟩ := hs
  obtain ⟨_, -, hr⟩ := hr
  exact ⟨hs, hr⟩

theorem Sensible.group {quantifier : Quantifier} {body rest : List Symbol}
    (h : Sensible desc owner (.group quantifier body :: rest)) :
    quantifier.Allows 1 ∧ Sensible desc owner body ∧ Sensible desc owner rest := by
  obtain ⟨hs, hr⟩ := h
  rw [checkShapes, bind_eq_ok_iff] at hs
  rw [checkReferences, bind_eq_ok_iff, checkReference] at hr
  obtain ⟨_, hsh, hs⟩ := hs
  obtain ⟨_, hb, hr⟩ := hr
  cases quantifier with
  | other mark =>
    simp only [checkShape, bind_eq_ok_iff, throw_ne_ok, false_and, exists_false] at hsh
  | optional | star | plus =>
    simp only [checkShape, bind_eq_ok_iff] at hsh
    obtain ⟨_, -, hsh⟩ := hsh
    exact ⟨by simp [Quantifier.Allows], ⟨hsh, hb⟩, hs, hr⟩

/-! ## Literals -/

private theorem literalsOfSymbol_subset {symbol : Symbol} (h : symbol ∈ symbols) :
    literalsOfSymbol symbol ⊆ literalsOfSymbols symbols := by
  induction symbols with
  | nil => cases h
  | cons first symbols ih =>
    rcases mem_cons.1 h with rfl | h
    · exact subset_append_left _ _
    · exact subset_append_of_subset_right _ (ih h)

theorem literalsOfSymbols_subset {more : List Symbol} (h : symbols ⊆ more) :
    literalsOfSymbols symbols ⊆ literalsOfSymbols more := by
  induction symbols with
  | nil => exact nil_subset _
  | cons symbol symbols ih =>
    rw [cons_subset] at h
    exact append_subset.2 ⟨literalsOfSymbol_subset h.1, ih h.2⟩

theorem literals_subset_tokenNames (desc : Description) :
    literalsOfSymbols (allSymbols desc.productions) ⊆ desc.tokenNames := by
  intro text ht
  refine mem_map.2 ⟨literalRule text, mem_append_left _ (mem_map_of_mem ?_), rfl⟩
  exact mem_eraseDups.2 ht

theorem Reads.subset_tokenNames {kinds : List String} (h : Reads desc symbols kinds)
    (hl : literalsOfSymbols symbols ⊆ desc.tokenNames) : kinds ⊆ desc.tokenNames := by
  have hr : ∀ {symbol : Symbol} {symbols : List Symbol},
      literalsOfSymbols (symbol :: symbols) ⊆ desc.tokenNames →
        literalsOfSymbol symbol ⊆ desc.tokenNames ∧ literalsOfSymbols symbols ⊆ desc.tokenNames :=
    fun h => append_subset.1 h
  induction h with
  | nil => exact nil_subset _
  | literal _ ih =>
    obtain ⟨ht, hs⟩ := hr hl
    exact cons_subset.2 ⟨ht mem_cons_self, ih hs⟩
  | token hn _ ih => exact cons_subset.2 ⟨hn, ih (hr hl).2⟩
  | production hp ha _ _ ihsub ihrest =>
    refine append_subset.2 ⟨ihsub ?_, ihrest (hr hl).2⟩
    refine List.Subset.trans (literalsOfSymbols_subset fun symbol hsy => ?_) (literals_subset_tokenNames desc)
    exact mem_flatMap.2 ⟨_, hp, mem_flatMap.2 ⟨_, ha, hsy⟩⟩
  | group rounds _ _ _ ihsub ihrest =>
    refine append_subset.2 ⟨ihsub ?_, ihrest (hr hl).2⟩
    refine List.Subset.trans (literalsOfSymbols_subset fun symbol hsy => ?_) (hr hl).1
    obtain ⟨body, hb, hm⟩ := mem_flatten.1 hsy
    rwa [eq_of_mem_replicate hb] at hm

end Grammar

end TreeLint
