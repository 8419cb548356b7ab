import TreeLint.Proofs.Nullability
import TreeLint.Proofs.Stop

/-!
# Grammars that passed the checks

What a description must satisfy to become a grammar, and how the tables of that grammar belong together.

* `Grammar.Built`: the checks that a description passed, and the parts of the grammar that was made of it;
* `Grammar.Tabulated`: the number of an alternative is its place, and the table of nullable nonterminals is that of the
  alternatives. This is all that the parser relies on.
-/

namespace TreeLint

open List

variable {desc : Description} {g : Grammar}

namespace Grammar

def Description.names (description : Description) : List String :=
  description.productions.map (·.name)

/-- The token rules of a description, literals first. -/
def Description.rules (description : Description) : List TokenRule :=
  (literals description.productions).map literalRule ++ description.tokens

def Description.tokenNames (description : Description) : List String :=
  description.rules.map (·.name)

structure Built (description : Description) (grammar : Grammar) : Prop where
  productions_eq : grammar.productions = description.productions
  start_eq : grammar.start = description.startName
  alternatives_eq : grammar.alternatives =
    (flatAlternatives description.tokenNames.contains description.productions).toArray
  nullTable_eq : grammar.nullTable = NullTable.ofAlternatives grammar.alternatives.toList
  kinds_eq : grammar.kinds = kindTable description.names description.tokenNames
  start_mem : description.startName ∈ description.names
  names_checked : checkProductionNames [] description.productions = .ok ()
  shapes_checked : checkShapes (allSymbols description.productions) = .ok ()
  tokenNames_checked : checkTokenNames description.names (literals description.productions) description.tokens = .ok ()
  scanners_compiled : compileRules [] description.rules = .ok grammar.scanners
  literals_checked : checkLiterals description.names (literals description.productions) = .ok ()
  references_checked :
    checkProductions (fun name => description.tokenNames.contains name || description.names.contains name)
      description.productions = .ok ()

private theorem built_of_check (h : check desc = .ok g) : Built desc g := by
  unfold check at h
  simp only [bind_eq_ok_iff, liftM_eq_ok_iff, mapError_eq_ok_iff, pure_eq_ok_iff] at h
  obtain ⟨_, -, _, hn, _, hs, _, hsh, _, ht, scanners, hsc, _, hl, _, -, directive, -,
    _, hr, rfl⟩ := h
  rw [Defect.unless_eq_ok_iff, contains_iff_mem] at hs
  exact {
    productions_eq := rfl, start_eq := rfl, alternatives_eq := rfl, nullTable_eq := rfl, kinds_eq := rfl,
    start_mem := hs, names_checked := hn, shapes_checked := hsh, tokenNames_checked := ht,
    scanners_compiled := hsc, literals_checked := hl, references_checked := hr }

theorem built_of_build (h : build desc = .ok g) : Built desc g :=
  built_of_check (mapError_eq_ok_iff.1 h)

/-! ## Places of alternatives -/

private theorem map_id_numberRules (before rules : List FlatRule) :
    (numberRules before rules).map (·.id) = List.range' before.length rules.length := by
  induction rules generalizing before with
  | nil => rfl
  | cons rule rules ih => rw [numberRules, map_cons, ih, length_append, length_singleton, length_cons, range'_succ]

private theorem map_rank_numberRules (before rules : List FlatRule) (name : String) :
    ((numberRules before rules).filter (·.lhs == name)).map (·.rank) =
      List.range' (before.countP (·.lhs == name)) (rules.countP (·.lhs == name)) := by
  induction rules generalizing before with
  | nil => rfl
  | cons rule rules ih =>
    have hr := ih (before ++ [rule])
    rw [countP_append, countP_singleton] at hr
    by_cases hl : rule.lhs = name
    · simp only [numberRules, filter_cons, countP_cons, hl, beq_self_eq_true, if_true] at hr ⊢
      rw [map_cons, hr, range'_succ]
    · simp only [numberRules, filter_cons, countP_cons, beq_false_of_ne hl, Bool.false_eq_true, if_false] at hr ⊢
      exact hr

/-- The tables of a grammar belong to its alternatives. -/
structure Tabulated (grammar : Grammar) : Prop where
  id_eq : ∀ {i : Nat} {alternative : FlatAlternative}, grammar.alternatives[i]? = some alternative → alternative.id = i
  nullTable_eq : grammar.nullTable = NullTable.ofAlternatives grammar.alternatives.toList

theorem Built.tabulated (h : Built desc g) : g.Tabulated where
  id_eq := by
    intro i alt hi
    rw [h.alternatives_eq, getElem?_toArray, flatAlternatives] at hi
    have hm := congrArg (·[i]?) (map_id_numberRules [] (flatten desc.tokenNames.contains desc.productions))
    rw [getElem?_map, hi] at hm
    obtain ⟨_, heq⟩ := List.getElem?_eq_some_iff.1 hm.symm
    simpa using heq.symm
  nullTable_eq := h.nullTable_eq

/-- The alternatives of a nonterminal are numbered in the order in which they stand. -/
theorem Built.map_rank (h : Built desc g) (name : String) :
    (g.alternativesOf name).map (·.rank) = List.range (g.alternativesOf name).length := by
  have hm := map_rank_numberRules [] (flatten desc.tokenNames.contains desc.productions) name
  rw [countP_nil, ← range_eq_range'] at hm
  rw [alternativesOf, h.alternatives_eq, flatAlternatives, ← length_map (·.rank), hm, length_range]

namespace Tabulated

theorem getElem?_id (h : g.Tabulated) {alt : FlatAlternative}
    (hm : alt ∈ g.alternatives.toList) : g.alternatives[alt.id]? = some alt := by
  obtain ⟨i, hi⟩ := mem_iff_getElem?.1 hm
  rw [Array.getElem?_toList] at hi
  rwa [h.id_eq hi]

theorem isNullable_iff (h : g.Tabulated) {name : String} :
    g.isNullable name ↔ g.Generates name [] := by
  unfold isNullable Generates
  rw [h.nullTable_eq]
  exact NullTable.isSome_lookup_ofAlternatives_iff

end Tabulated

theorem mem_alternativesOf_iff {name : String} {alt : FlatAlternative} : alt ∈ g.alternativesOf name ↔
      alt ∈ g.alternatives.toList ∧ alt.lhs = name := by
  simp [alternativesOf]

/-! ## A grammar with a cycle -/

/-- A nonterminal that stands for itself, for one token or for nothing. -/
def loop : Description where
  name := "loop"
  productions := [{
    name := "A"
    alternatives := [{ symbols := [.ref "A"] }, { symbols := [.literal "a"] }, { symbols := [] }] }]
  suppression := { directive := "x" }

theorem exists_build_loop : ∃ g, build loop = .ok g := by
  have hok : (build loop).isOk = true := by decide +kernel
  exact exists_eq_ok hok

theorem Built.exists_alternative_loop (h : Built loop g) :
    ∃ alt ∈ g.alternatives.toList, alt.lhs = g.start ∧ alt.symbols = [.terminal "a"] := by
  rw [h.start_eq, h.alternatives_eq]
  decide +kernel

/-- The cyclic grammar generates one token, and nothing. -/
theorem Built.generates_loop (h : Built loop g) : g.Generates g.start ["a"] ∧ g.Generates g.start [] := by
  have hn : ∃ alt ∈ g.alternatives.toList, alt.lhs = g.start ∧
      alt.symbols = [] := by
    rw [h.start_eq, h.alternatives_eq]
    decide +kernel
  obtain ⟨one, hm, hl, hs⟩ := h.exists_alternative_loop
  obtain ⟨none, hm', hl', hs'⟩ := hn
  refine ⟨generates_iff.2 ⟨one, hm, hl, ?_⟩, generates_iff.2 ⟨none, hm', hl', ?_⟩⟩
  · rw [hs]
    exact .terminal .nil
  · rw [hs']
    exact .nil

end Grammar

end TreeLint
