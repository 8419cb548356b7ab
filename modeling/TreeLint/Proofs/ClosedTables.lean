import TreeLint.Proofs.Bindings
import TreeLint.Proofs.KnownKinds
import TreeLint.Proofs.Lowering
import TreeLint.Proofs.SourceViews

/-!
# The tables of a checked grammar are closed

What the checks of a description promise to the parser: the symbols of all flat alternatives are defined, no two kinds
have the same name, and every kind that occurs has a number.

* `Grammar.Built.mem_of_mem_symbols`: terminals have token rules, and nonterminals are productions or have alternatives;
* `Grammar.Built.disjoint`: productions, literals, tokens and reserved kinds have different names, up to white space;
* `Grammar.Built.kindId?_eq_some_iff`: numbers and names of kinds belong to each other;
* `Grammar.Built.eq_or_hidden`: which symbols of flat alternatives may have the same number.
-/

namespace TreeLint

open List

namespace Grammar

variable {description : Description} {grammar : Grammar} {name : String}

/-- The reserved kinds, and those of productions, of literals and of token rules with another name than white space. -/
def Description.kindGroups (description : Description) : List (List String) :=
  [reservedKinds, description.names, literals description.productions,
    (description.tokens.map (·.name)).filter (· != whitespaceKind)]

/-- The symbols with a name in the description. Only the nonterminals of groups have none. -/
def Description.symbols (description : Description) : List FlatSymbol :=
  description.names.map .nonterminal ++ description.tokenNames.map .terminal

/-- The symbols of all flat alternatives. -/
def flatSymbols (grammar : Grammar) : List FlatSymbol :=
  grammar.alternatives.toList.flatMap (·.symbols)

namespace Built

variable (h : Built description grammar)

include h

theorem mem_of_mem_symbols {alternative : FlatAlternative}
    (hm : alternative ∈ grammar.alternatives.toList) : ∀ symbol ∈ alternative.symbols, symbol.name ∈
      if symbol.isTerminal then description.tokenNames
      else description.names ++ grammar.alternatives.toList.map (·.lhs) := by
  have hr := mem_map_of_mem (f := (·.toFlatRule)) hm
  rw [h.map_toFlatRule] at hr
  obtain ⟨production, hp, hr⟩ := mem_flatMap.1 hr
  refine forall_mem_flattenAlternatives (fun _ => id) (fun _ => mem_append_left _) (fun _ => h.sensible hp) ?_ ?_ _ hr
  · intro alt ha text ht
    refine literals_subset_tokenNames _ (literalsOfSymbols_subset (fun symbol hs => ?_) ht)
    exact mem_flatMap.2 ⟨_, hp, mem_flatMap.2 ⟨_, ha, hs⟩⟩
  · intro rule hr
    have hf : rule ∈ flatten description.tokenNames.contains description.productions := mem_flatMap.2 ⟨_, hp, hr⟩
    rw [← h.map_toFlatRule] at hf
    obtain ⟨alt, ha, rfl⟩ := mem_map.1 hf
    exact mem_append_right _ (mem_map.2 ⟨alt, ha, rfl⟩)

private theorem not_mem_of_mem_tokens
    (hn : name ∈ (description.tokens.map (·.name)).filter (· != whitespaceKind)) :
    name ∉ literals description.productions ∧ name ∉ description.names ∧ name ∉ reservedKinds := by
  obtain ⟨hm, hw⟩ := mem_filter.1 hn
  obtain ⟨rule, hr, rfl⟩ := mem_map.1 hm
  obtain ⟨-, hl, hp, hrs⟩ := (tokenNames_of_check h.tokenNames_checked).2 rule hr
  exact ⟨hl, hp, fun hk => bne_iff_ne.1 hw (hrs hk)⟩

theorem disjoint : description.kindGroups.Pairwise List.Disjoint := by
  have hl := fun text => @checkLiterals_of_mem _ _ h.literals_checked text
  have ht := fun name => @not_mem_of_mem_tokens _ _ name h
  simp only [Description.kindGroups, pairwise_cons, forall_mem_cons]
  exact ⟨⟨fun _ hr hn => h.not_mem_reservedKinds hn hr, fun _ hr hn => (hl _ hn).2 hr,
      fun _ hr hn => (ht _ hn).2.2 hr, forall_mem_nil _⟩,
    ⟨fun _ hp hn => (hl _ hn).1 hp, fun _ hp hn => (ht _ hn).2.1 hp, forall_mem_nil _⟩,
    ⟨fun _ hl hn => (ht _ hn).1 hl, forall_mem_nil _⟩, forall_mem_nil _, .nil⟩

/-- Productions and tokens have different names. -/
private theorem nodup_names : (description.names ++ description.tokenNames).Nodup := by
  have hm : description.tokenNames = literals description.productions ++ description.tokens.map (·.name) := by
    simp [Description.tokenNames, Description.rules, Function.comp_def, literalRule]
  obtain ⟨hnd, ht⟩ := tokenNames_of_check h.tokenNames_checked
  refine (names_of_check h.names_checked).1.append ?_ fun name hp => h.not_mem_tokenNames hp
  rw [hm]
  refine (nodup_eraseDups _).append hnd fun name hl hn => ?_
  obtain ⟨rule, hr, rfl⟩ := mem_map.1 hn
  exact (ht rule hr).2.1 hl

private theorem nodup_kinds : grammar.kinds.Nodup := by
  rw [h.kinds_eq, kindTable, append_assoc]
  refine Nodup.append (by decide) (h.nodup_names.sublist (filter_sublist.append_left _)) fun name hr hn => ?_
  rcases mem_append.1 hn with hp | ht
  · exact h.not_mem_reservedKinds hp hr
  · simpa [hr] using (mem_filter.1 ht).2

theorem kindId?_eq_some_iff {id : Nat} :
    grammar.kindId? name = some id ↔ grammar.kindName? id = some name := by
  have hi : grammar.kindName? id = grammar.kinds[id]? := by
    have hp : ¬ (id : Int) < 0 := by omega
    by_cases hlt : id < grammar.kinds.length <;> simp [kindName?, resolveIndex?, hp, hlt]
  rw [hi, kindId?, List.getElem?_eq_some_iff, idxOf?_eq_some_iff]
  refine exists_congr fun hlt => and_iff_left_of_imp ?_
  rintro rfl j hj heq
  exact absurd (h.nodup_kinds.getElem_inj_iff.1 heq) (Nat.ne_of_lt hj)

private theorem exists_kindId {symbol : FlatSymbol} (hs : symbol ∈ description.symbols) :
    ∃ id, grammar.kindId? symbol.name = some id ∧
      ∀ other ∈ description.symbols, grammar.kindId? other.name = some id → other = symbol := by
  have hm : description.symbols.map (·.name) = description.names ++ description.tokenNames := by
    simp [Description.symbols, Function.comp_def, FlatSymbol.name]
  have hn := mem_map_of_mem (f := (·.name)) hs
  rw [hm, mem_append] at hn
  have hk := kindId?_eq_some_kindId (h.mem_kinds_iff.2 (.inr hn))
  refine ⟨_, hk, fun other ho heq => inj_on_of_nodup_map (hm ▸ h.nodup_names) ho hs ?_⟩
  rwa [h.kindId?_eq_some_iff, h.kindId?_eq_some_iff.1 heq, Option.some.injEq] at hk

/-- Of the names of groups only those have a number that are literals, too. -/
private theorem mem_literals_of_hidden (hn : name ∈ description.hiddenNames)
    (hk : (grammar.kindId? name).isSome) : name ∈ literals description.productions := by
  have hh := hash_mem_of_mem_hiddenNames hn
  rw [kindId?, isSome_idxOf?, h.mem_kinds_iff] at hk
  rcases hk with hr | hp | ht
  · exact absurd hh (hash_not_mem_of_mem_reservedKinds hr)
  · exact absurd hp (h.not_mem_names_of_mem_hiddenNames hn)
  · exact h.mem_literals_of_hash ht hh

/-- A symbol of a flat alternative has its name in the description, or stands for a group. -/
private theorem mem_symbols_or_hidden {symbol : FlatSymbol} (hs : symbol ∈ grammar.flatSymbols) :
    symbol ∈ description.symbols ∨ ∃ name ∈ description.hiddenNames, symbol = .nonterminal name := by
  obtain ⟨alternative, ha, hs⟩ := mem_flatMap.1 hs
  have hn := h.mem_of_mem_symbols ha symbol hs
  cases symbol with
  | terminal kind => exact .inl (mem_append_right _ (mem_map_of_mem hn))
  | nonterminal name =>
    have hd : name ∈ description.names ∨ name ∈ description.hiddenNames := by
      rcases mem_append.1 hn with hp | hl
      · exact .inl hp
      · obtain ⟨other, ho, rfl⟩ := mem_map.1 hl
        exact h.lhs_mem ho
    exact hd.imp (fun hp => mem_append_left _ (mem_map_of_mem hp)) fun hh => ⟨name, hh, rfl⟩

/-- Symbols of flat alternatives share a number only if a literal is spelled like the nonterminal of a group. -/
theorem eq_or_hidden {symbol other : FlatSymbol} {id : Nat} (hs : symbol ∈ grammar.flatSymbols)
    (ho : other ∈ grammar.flatSymbols) (hk : grammar.kindId? symbol.name = some id)
    (hk' : grammar.kindId? other.name = some id) :
    other = symbol ∨ other.name = symbol.name ∧ symbol.name ∈ description.hiddenNames ∧
      symbol.name ∈ literals description.productions := by
  have hn : other.name = symbol.name := by
    rwa [h.kindId?_eq_some_iff, h.kindId?_eq_some_iff.1 hk', Option.some.injEq] at hk
  have hl : symbol.name ∈ description.hiddenNames → symbol.name ∈ literals description.productions :=
    fun hh => h.mem_literals_of_hidden hh (Option.isSome_of_eq_some hk)
  rcases h.mem_symbols_or_hidden hs with hd | ⟨name, hh, rfl⟩
  · rcases h.mem_symbols_or_hidden ho with hd' | ⟨name, hh, rfl⟩
    · obtain ⟨same, hsa, hu⟩ := h.exists_kindId hd
      rw [hk, Option.some.injEq] at hsa
      exact .inl (hu other hd' (hsa ▸ hk'))
    · have hm : symbol.name ∈ description.hiddenNames := hn ▸ hh
      exact .inr ⟨hn, hm, hl hm⟩
  · exact .inr ⟨hn, hh, hl hh⟩

end Built

/-- The tables of a checked grammar are closed. Terminals have token rules, and nonterminals are productions or have
alternatives. The names of kinds are different, so that names and numbers belong to each other; the nonterminals of
groups have no numbers, unless there is a literal with the name of one, and this is the only way for two symbols to have
the same number. Alternatives are numbered by their places, and those of a nonterminal in the order of declaration. Every
kind that a token or a node has is numbered. -/
theorem tables_closed (hbuild : build description = .ok grammar) :
    (∀ alternative ∈ grammar.alternatives.toList, ∀ symbol ∈ alternative.symbols,
      if symbol.isTerminal then (grammar.tokenRule? symbol.name).isSome
      else symbol.name ∈ grammar.productions.map (·.name) ++ grammar.alternatives.toList.map (·.lhs)) ∧
    description.kindGroups.Pairwise List.Disjoint ∧
    (∀ name (id : Nat), grammar.kindId? name = some id ↔ grammar.kindName? id = some name) ∧
    (∀ symbol ∈ description.symbols, ∃ id, grammar.kindId? symbol.name = some id ∧
      ∀ other ∈ description.symbols, grammar.kindId? other.name = some id → other = symbol) ∧
    (∀ name ∈ description.hiddenNames, (grammar.kindId? name).isSome → name ∈ literals description.productions) ∧
    (∀ symbol ∈ grammar.flatSymbols, symbol ∈ description.symbols ∨
      ∃ name ∈ description.hiddenNames, symbol = .nonterminal name) ∧
    (∀ symbol ∈ grammar.flatSymbols, ∀ other ∈ grammar.flatSymbols, ∀ id, grammar.kindId? symbol.name = some id →
      grammar.kindId? other.name = some id → other = symbol ∨
        other.name = symbol.name ∧ symbol.name ∈ description.hiddenNames ∧
          symbol.name ∈ literals description.productions) ∧
    (∀ i (alternative : FlatAlternative), grammar.alternatives[i]? = some alternative → alternative.id = i) ∧
    (∀ name, (grammar.alternativesOf name).map (·.rank) = List.range (grammar.alternativesOf name).length) ∧
    (∀ production ∈ description.productions, List.Forall₂ (fun declared flat =>
        List.Forall₂ (Lowers description (grammar.alternatives.toList.map (·.toFlatRule))) declared.symbols flat.symbols)
      production.alternatives ((grammar.alternativesOf production.name).map (·.toFlatRule))) ∧
    (∀ source, ∀ token ∈ tokenize grammar source, grammar.kindId? token.kind = some token.kindId) ∧
    ∀ source path config, (∃ bytes, source = .ofBytes bytes) ∨ (∃ text, source = .ofText text) →
      ∀ id < (Tree.parse grammar source path config).size,
        grammar.kindId? ((Tree.parse grammar source path config).node id).kind =
          some ((Tree.parse grammar source path config).node id).kindId := by
  have h := built_of_build hbuild
  refine ⟨fun alternative ha symbol hs => ?_, h.disjoint, fun _ _ => h.kindId?_eq_some_iff, fun _ => h.exists_kindId,
    fun _ => h.mem_literals_of_hidden, fun _ => h.mem_symbols_or_hidden, fun _ hs _ ho _ => h.eq_or_hidden hs ho,
    fun _ _ => h.tabulated.id_eq, h.map_rank, fun production hp => ?_, fun _ _ => kindId?_token h, ?_⟩
  · have hk := h.mem_of_mem_symbols ha symbol hs
    split
    next ht =>
      rw [if_pos ht] at hk
      obtain ⟨rule, hr, hn⟩ := mem_map.1 hk
      rw [tokenRule?, tokenRules, h.map_rule_scanners, find?_isSome]
      exact ⟨rule, hr, beq_iff_eq.2 hn⟩
    next ht =>
      rw [h.productions_eq]
      rwa [if_neg ht] at hk
  · rw [map_alternativesOf]
    exact h.lowering.lowers hp
  · exact fun _ path config hs _ => Tree.kindId?_node h (Source.lined_of_read hs).toEncoded path config

theorem tables_closed_of_bracketed : ∃ grammar, build bracketed = .ok grammar ∧
    bracketed.kindGroups.drop 1 = [["list"], ["[", "a", ",", "]"], []] ∧
    (∀ name (id : Nat), grammar.kindId? name = some id ↔ grammar.kindName? id = some name) ∧
    (∀ symbol ∈ grammar.flatSymbols, ∀ other ∈ grammar.flatSymbols, ∀ id, grammar.kindId? symbol.name = some id →
      grammar.kindId? other.name = some id → other = symbol) ∧
    ∀ id < (Tree.parse grammar (.ofText (Text.ofString "[a")) Tree.defaultPath {}).size,
      (grammar.kindId?
        ((Tree.parse grammar (.ofText (Text.ofString "[a")) Tree.defaultPath {}).node id).kind).isSome := by
  have hok : (build bracketed).isOk = true := by decide +kernel
  obtain ⟨grammar, hb⟩ := exists_eq_ok hok
  obtain ⟨-, -, hk, -, -, -, hu, -, -, -, -, hp⟩ := tables_closed hb
  refine ⟨grammar, hb, by decide +kernel, hk, fun symbol hs other ho id hi hi' => ?_, fun id hid => ?_⟩
  · refine (hu symbol hs other ho id hi hi').resolve_right fun hc => ?_
    exact (by decide +kernel : ∀ name ∈ bracketed.hiddenNames, name ∉ literals bracketed.productions) _ hc.2.1 hc.2.2
  · rw [hp _ _ _ (.inr ⟨_, rfl⟩) id hid]
    rfl

/-- A literal and the nonterminal of a group may have the same number. -/
theorem flat_symbols_share_id : ∃ grammar id, build misnamed = .ok grammar ∧
    ∃ symbol ∈ grammar.flatSymbols, ∃ other ∈ grammar.flatSymbols, other ≠ symbol ∧
      grammar.kindId? symbol.name = some id ∧ grammar.kindId? other.name = some id := by
  have hok : (build misnamed).isOk = true := by decide +kernel
  obtain ⟨grammar, hb⟩ := exists_eq_ok hok
  have h := built_of_build hb
  refine ⟨grammar, 6, hb, .terminal "S#1", ?_, .nonterminal "S#1", ?_, nofun, ?_, ?_⟩
  · rw [flatSymbols, h.alternatives_eq]
    decide +kernel
  · rw [flatSymbols, h.alternatives_eq]
    decide +kernel
  all_goals
    rw [kindId?, h.kinds_eq]
    decide +kernel

end Grammar

end TreeLint
