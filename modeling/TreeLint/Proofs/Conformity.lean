import Mathlib.Computability.RegularExpressions
import TreeLint.Proofs.KnownKinds
import TreeLint.Proofs.Lowering

/-!
# Trees conform to their grammar

The alternatives of a production are regular expressions over kinds. Where no production is inline or transparent, the
significant children of a node are what an alternative of its production says, but for skipped tokens: the hidden
nonterminals that groups became are gone, and each round of a group is found in its place.

* `Grammar.regexOfSymbols`: a sequence of symbols as a regular expression;
* `Draft.conforms_ofForest`: the drafts of a forest conform to the description of the grammar;
* `Tree.parse_conforms`: so does the tree of every source.
-/

namespace TreeLint

open List Grammar

namespace Grammar

/-! ## Alternatives as regular expressions -/

/-- A regular expression as often as a mark allows. -/
def Quantifier.regex : Quantifier → RegularExpression String → RegularExpression String
  | .optional, once => 1 + once
  | .star, once => once.star
  | .plus, once => once * once.star
  | .other _, _ => 0

mutual

def regexOfSymbol : Symbol → RegularExpression String
  | .ref name => .char name
  | .literal text => .char text
  | .group quantifier symbols => quantifier.regex (regexOfSymbols symbols)

/-- A sequence of symbols as a regular expression over kinds. -/
def regexOfSymbols : List Symbol → RegularExpression String
  | [] => 1
  | symbol :: symbols => regexOfSymbol symbol * regexOfSymbols symbols

end

/-- A production has an alternative that matches a sequence of kinds. -/
def Production.Admits (production : Production) (kinds : List String) : Prop :=
  ∃ alternative ∈ production.alternatives, kinds ∈ (regexOfSymbols alternative.symbols).matches'

instance (production : Production) (kinds : List String) : Decidable (production.Admits kinds) :=
  inferInstanceAs (Decidable (∃ alternative ∈ production.alternatives, _))

example : ∀ production ∈ bracketed.productions, production.Admits ["[", "a", ",", "a", "]"] ∧
    ¬ production.Admits ["[", "a", ",", "]"] := by decide +kernel

private theorem nil_mem_regexOfSymbols : [] ∈ (regexOfSymbols []).matches' := by
  rw [regexOfSymbols, RegularExpression.matches'_epsilon]
  exact Language.nil_mem_one

private theorem mem_regexOfSymbols_singleton {symbol : Symbol} {kinds : List String} :
    kinds ∈ (regexOfSymbols [symbol]).matches' ↔ kinds ∈ (regexOfSymbol symbol).matches' := by
  rw [regexOfSymbols, regexOfSymbols, RegularExpression.matches'_mul, RegularExpression.matches'_epsilon, mul_one]

private theorem append_mem_regexOfSymbols {before after : List Symbol} {first rest : List String}
    (hf : first ∈ (regexOfSymbols before).matches') (hr : rest ∈ (regexOfSymbols after).matches') :
    first ++ rest ∈ (regexOfSymbols (before ++ after)).matches' := by
  induction before generalizing first with
  | nil =>
    rw [regexOfSymbols, RegularExpression.matches'_epsilon, Language.mem_one] at hf
    rwa [hf]
  | cons symbol before ih =>
    rw [regexOfSymbols, RegularExpression.matches'_mul, Language.mem_mul] at hf
    obtain ⟨here, hh, later, hl, rfl⟩ := hf
    rw [cons_append, regexOfSymbols, RegularExpression.matches'_mul, append_assoc]
    exact Language.append_mem_mul hh (ih hl)

variable {description : Description} {rules : List FlatRule} {hidden : String} {quantifier : Quantifier}
  {flat : List FlatSymbol}

private theorem mem_regex_of_mem_groupRules {body : List Symbol} {rule : FlatRule} {kinds : List String}
    (hm : rule ∈ groupRules hidden quantifier flat) (hon : quantifier.Allows 1)
    (hb : List.Forall₂ (Lowers description rules) body flat)
    (hg : Lowers description rules (.group quantifier body) (.nonterminal hidden))
    (h : ∀ {symbols : List Symbol}, List.Forall₂ (Lowers description rules) symbols rule.symbols →
      kinds ∈ (regexOfSymbols symbols).matches') :
    kinds ∈ (quantifier.regex (regexOfSymbols body)).matches' := by
  have ho (hr : rule.symbols = flat) : kinds ∈ (regexOfSymbols body).matches' := h (hr ▸ hb)
  have hn (hr : rule.symbols = []) : kinds = [] := by
    have hnl : kinds ∈ (regexOfSymbols []).matches' := h (hr ▸ .nil)
    rwa [regexOfSymbols, RegularExpression.matches'_epsilon, Language.mem_one] at hnl
  have ha (hr : rule.symbols = .nonterminal hidden :: flat) :
      kinds ∈ (quantifier.regex (regexOfSymbols body)).matches' * (regexOfSymbols body).matches' := by
    have hrn : kinds ∈ (regexOfSymbols (.group quantifier body :: body)).matches' := h (hr ▸ .cons hg hb)
    rwa [regexOfSymbols, regexOfSymbol, RegularExpression.matches'_mul] at hrn
  cases quantifier with
  | optional =>
    rw [Quantifier.regex, RegularExpression.matches'_add, Language.mem_add]
    rcases mem_pair.1 hm with rfl | rfl
    · exact .inr (ho rfl)
    · exact .inl (hn rfl)
  | star =>
    rw [Quantifier.regex, RegularExpression.matches'_star] at ha ⊢
    rcases mem_pair.1 hm with rfl | rfl
    · rw [hn rfl]
      exact Language.nil_mem_kstar _
    · rw [← Language.one_add_kstar_mul_self_eq_kstar]
      exact .inr (ha rfl)
  | plus =>
    rw [Quantifier.regex, RegularExpression.matches'_mul, RegularExpression.matches'_star] at ha ⊢
    rcases mem_pair.1 hm with rfl | rfl
    · rw [← append_nil kinds]
      exact Language.append_mem_mul (ho rfl) (Language.nil_mem_kstar _)
    · have hrn := ha rfl
      rw [mul_assoc, Language.mem_mul] at hrn
      obtain ⟨first, hf, rest, hrs, rfl⟩ := hrn
      refine Language.append_mem_mul hf ?_
      rw [← Language.one_add_kstar_mul_self_eq_kstar]
      exact .inr hrs
  | other mark => exact hon.elim

/-! ## Names that stay -/

variable {grammar : Grammar} {name : String}

private theorem Built.exists_production? (h : Built description grammar) (hn : name ∈ description.names) :
    ∃ production ∈ description.productions, grammar.production? name = some production := by
  obtain ⟨production, hm, hp⟩ := mem_map.1 hn
  rw [← h.productions_eq] at hm
  have hs : (grammar.production? name).isSome :=
    find?_isSome.2 ⟨production, hm, by simpa using hp⟩
  obtain ⟨found, hf⟩ := Option.isSome_iff_exists.1 hs
  exact ⟨found, h.productions_eq ▸ mem_of_find?_eq_some hf, hf⟩

end Grammar

/-! ## Drafts that conform -/

namespace Draft

variable {description : Description} {grammar : Grammar} {tokens : Array Token} {draft : Draft}

def kind (tokens : Array Token) : Draft → String
  | .leaf token => (tokens.getD token default).kind
  | .node kind _ => kind

/-- The kinds of drafts, without those over skipped tokens. -/
def properKinds (tokens : Array Token) (drafts : List Draft) : List String :=
  (drafts.map (·.kind tokens)).filter (· != errorKind)

private theorem properKinds_append (drafts more : List Draft) :
    properKinds tokens (drafts ++ more) = properKinds tokens drafts ++ properKinds tokens more := by
  rw [properKinds, map_append, filter_append]
  rfl

private theorem properKinds_singleton (h : draft.kind tokens ≠ errorKind) :
    properKinds tokens [draft] = [draft.kind tokens] :=
  filter_cons_of_pos (by simpa using h)

private theorem properKinds_error (children : List Draft) : properKinds tokens [.node errorKind children] = [] := by
  simp [properKinds, kind]

/-- Below every node for a production stands what one of its alternatives says. -/
inductive Conforms (description : Description) (tokens : Array Token) : Draft → Prop
  | leaf (token : Nat) : Conforms description tokens (.leaf token)
  | node {kind : String} {children : List Draft} : (∀ production ∈ description.productions, production.name = kind →
        production.Admits (properKinds tokens children)) →
      (∀ child ∈ children, Conforms description tokens child) → Conforms description tokens (.node kind children)

theorem Conforms.children (h : Conforms description tokens draft) :
    ∀ child ∈ draft.children, Conforms description tokens child := by
  cases h with
  | leaf => exact forall_mem_nil _
  | node _ hc => exact hc

private theorem conforms_of_reserved (h : Built description grammar) {kind : String} (hk : kind ∈ Grammar.reservedKinds)
    {children : List Draft} (hc : ∀ child ∈ children, Conforms description tokens child) :
    Conforms description tokens (.node kind children) := by
  refine .node (fun production hp hn => ?_) hc
  exact absurd hk (h.not_mem_reservedKinds (hn ▸ mem_map_of_mem hp))

private theorem conforms_of_mem_leaves {significant : Array Nat} {start stop : Nat}
    (hd : draft ∈ leaves significant start stop) : Conforms description tokens draft := by
  obtain ⟨token, -, rfl⟩ := mem_map.1 hd
  exact .leaf token

/-- Drafts stand for flat symbols: they conform, and without skipped tokens their kinds are matched by the symbols in
whose place the flat ones stand. -/
structure Mirrors (description : Description) (rules : List FlatRule) (tokens : Array Token) (symbols : List FlatSymbol)
    (drafts : List Draft) : Prop where
  conforms : ∀ draft ∈ drafts, Conforms description tokens draft
  spells : ∀ {written : List Grammar.Symbol}, List.Forall₂ (Lowers description rules) written symbols →
    properKinds tokens drafts ∈ (regexOfSymbols written).matches'

variable {rules : List FlatRule}

private theorem mirrors_nil : Mirrors description rules tokens [] [] where
  conforms _ hd := absurd hd not_mem_nil
  spells hw := by
    cases hw
    exact Grammar.nil_mem_regexOfSymbols

theorem Mirrors.append {symbols more : List FlatSymbol} {drafts others : List Draft}
    (h : Mirrors description rules tokens symbols drafts) (hm : Mirrors description rules tokens more others) :
    Mirrors description rules tokens (symbols ++ more) (drafts ++ others) where
  conforms draft hd := (mem_append.1 hd).elim (h.conforms draft) (hm.conforms draft)
  spells {written} hw := by
    have hf := h.spells (forall₂_take_append written symbols more hw)
    have hr := hm.spells (forall₂_drop_append written symbols more hw)
    have ha := Grammar.append_mem_regexOfSymbols hf hr
    rwa [take_append_drop, ← properKinds_append] at ha

/-! ## Drafts of derivations -/

section Derivations

variable (h : Built description grammar)
  (hkept : ∀ production ∈ description.productions, production.inline = false ∧ production.transparent = false)

include h hkept

private theorem wrap_of_mem_names {name : String} (hn : name ∈ description.names) (children : List Draft) :
    wrap grammar name children = [.node name children] := by
  obtain ⟨production, hm, hp⟩ := h.exists_production? hn
  obtain ⟨hi, ht⟩ := hkept production hm
  simp [wrap, isInline, isTransparent, hp, hi, ht]

omit hkept in
private theorem wrap_of_not_mem_names {name : String} (hn : name ∉ description.names) (children : List Draft) :
    wrap grammar name children = children := by
  have hi : grammar.isInline name = true := by
    by_contra hi
    exact hn (h.mem_names_of_isInline (by simpa using hi))
  rw [wrap, if_pos hi]

private theorem mirrors_wrap {alt : FlatAlternative} (hm : alt ∈ grammar.alternatives.toList)
    {children : List Draft} (hc : Mirrors description (grammar.alternatives.toList.map (·.toFlatRule)) tokens
      alt.symbols children) :
    Mirrors description (grammar.alternatives.toList.map (·.toFlatRule)) tokens [.nonterminal alt.lhs]
      (wrap grammar alt.lhs children) := by
  have hr : alt.toFlatRule ∈
      (grammar.alternatives.toList.map (·.toFlatRule)).filter (·.lhs == alt.lhs) :=
    mem_filter.2 ⟨mem_map_of_mem hm, beq_self_eq_true _⟩
  by_cases hn : alt.lhs ∈ description.names
  · -- the node of a production stays, and one of its alternatives has been lowered to the flat one
    rw [wrap_of_mem_names h hkept hn]
    constructor
    · intro draft hd
      rw [mem_singleton] at hd
      subst hd
      refine .node (fun production hp heq => ?_) hc.conforms
      rw [← heq] at hr
      obtain ⟨declared, hdc, hs⟩ :=
        exists_of_forall₂_right (h.lowering.lowers hp) hr
      exact ⟨declared, hdc, hc.spells hs⟩
    · intro written hw
      have he : (Draft.node alt.lhs children).kind tokens ≠ errorKind := by
        intro heq
        rw [kind] at heq
        exact h.not_mem_reservedKinds hn (by rw [heq]; decide)
      rw [properKinds_singleton he]
      cases hw with
      | cons hf hrs =>
        cases hrs
        rw [Grammar.mem_regexOfSymbols_singleton]
        cases hf with
        | production => exact rfl
        | group _ _ _ hh => exact absurd hn (h.not_mem_names_of_hash hh)
  · -- the node of a group gives way, and the flat alternative is one of the rules of the group
    rw [wrap_of_not_mem_names h hn]
    refine ⟨hc.conforms, fun hw => ?_⟩
    cases hw with
    | cons hf hrs =>
      cases hrs
      rw [Grammar.mem_regexOfSymbols_singleton]
      cases hf with
      | production hp => exact absurd hp hn
      | group ho hb hrl hh =>
        rw [hrl] at hr
        exact Grammar.mem_regex_of_mem_groupRules hr ho hb (.group ho hb hrl hh) hc.spells

variable {kinds : Array String} {gaps : List Chart.Gap} {significant : Array Nat}

omit h hkept in
private theorem mirrors_ofDerivations {parts : List Derivation}
    (hp : ∀ part ∈ parts, Mirrors description rules tokens (part.symbol? kinds).toList
      (ofDerivation grammar significant part)) :
    Mirrors description rules tokens (parts.filterMap (Derivation.symbol? kinds))
      (ofDerivations grammar significant parts) := by
  induction parts with
  | nil => exact mirrors_nil
  | cons part parts ih =>
    have hf := hp part mem_cons_self
    have hr := ih (forall_mem_cons.1 hp).2
    have hc : (part :: parts).filterMap (Derivation.symbol? kinds) =
        (part.symbol? kinds).toList ++ parts.filterMap (Derivation.symbol? kinds) := by
      cases hpr : part.symbol? kinds <;> simp [hpr]
    rw [hc, ofDerivations]
    exact hf.append hr

private theorem mirrors_ofDerivation (hk : ∀ pos < kinds.size,
      (tokens.getD (significant.getD pos 0) default).kind = kinds.getD pos "")
    (hp : ∀ pos < kinds.size, kinds.getD pos "" ≠ errorKind) {deriv : Derivation}
    (hv : deriv.Valid grammar kinds gaps) :
    Mirrors description (grammar.alternatives.toList.map (·.toFlatRule)) tokens (deriv.symbol? kinds).toList
      (ofDerivation grammar significant deriv) := by
  induction hv with
  | @token pos hlt =>
    have hkn : (Draft.leaf (significant.getD pos 0)).kind tokens = kinds.getD pos "" := hk pos hlt
    constructor
    · intro draft hd
      rw [ofDerivation, mem_singleton] at hd
      exact hd ▸ .leaf _
    · intro written hw
      rw [ofDerivation, properKinds_singleton (hkn ▸ hp pos hlt), hkn]
      cases hw with
      | cons hf hr =>
        cases hr
        rw [Grammar.mem_regexOfSymbols_singleton]
        cases hf <;> exact rfl
  | phrase hm _ hft _ ih | empty hm hft _ ih =>
    have hc := mirrors_ofDerivations ih
    rw [hft.spells] at hc
    exact mirrors_wrap h hkept hm hc
  | skipped =>
    constructor
    · intro draft hd
      rw [ofDerivation, mem_singleton] at hd
      exact hd ▸ conforms_of_reserved h (by decide) fun _ => conforms_of_mem_leaves
    · intro written hw
      rw [ofDerivation, properKinds_error]
      cases hw
      exact Grammar.nil_mem_regexOfSymbols

theorem conforms_ofForest {tokens : List Token} (hp : ∀ token ∈ tokens, token.kind ≠ errorKind) (cfg : Config) :
    ∀ draft ∈ ofForest (Forest.parse grammar tokens cfg), Conforms description tokens.toArray draft := by
  have hk' := Forest.parse_keepsake grammar tokens cfg
  have hr := @Forest.exists_root?_eq grammar tokens cfg
  generalize Forest.parse grammar tokens cfg = forest at *
  intro draft hd
  rw [ofForest_eq, mem_append] at hd
  rcases hd with hd | hd
  · cases hpr : forest.parsed with
    | none =>
      rw [Forest.root?_eq_none hpr] at hd
      cases hd
    | some stop =>
      obtain ⟨deriv, heq, -, hdr⟩ := hr h.tabulated hpr
      have hk : ∀ pos < (Forest.meaningfulKinds tokens).size,
          (tokens.toArray.getD (forest.significant.getD pos 0) default).kind =
            (Forest.meaningfulKinds tokens).getD pos "" := by
        intro pos hpo
        rw [hk'.significant_eq]
        exact kind_significantPlaces tokens hpo
      have he : ∀ pos < (Forest.meaningfulKinds tokens).size,
          (Forest.meaningfulKinds tokens).getD pos "" ≠ errorKind := by
        intro pos hpo
        have hm := Array.getElem_mem_toList hpo
        rw [Forest.toList_meaningfulKinds, mem_map] at hm
        obtain ⟨token, ht, hkn⟩ := hm
        rw [Array.getD_eq_getD_getElem?, Array.getElem?_eq_getElem hpo, Option.getD_some, ← hkn]
        exact hp token (mem_filter.1 ht).1
      rw [heq, hk'.grammar_eq] at hd
      exact (mirrors_ofDerivation h hkept hk he hdr.valid).conforms draft hd
  · cases hu : forest.unparsedFrom with
    | none =>
      rw [hu] at hd
      cases hd
    | some start =>
      rw [hu, Option.map_some, Option.getD_some, mem_singleton] at hd
      exact hd ▸ conforms_of_reserved h (by decide) fun _ => conforms_of_mem_leaves

end Derivations

end Draft

/-! ## Trees that conform -/

namespace Tree

variable {description : Description} {grammar : Grammar} {source : Source} {id : Nat}

private theorem conforms_child {tokens : Array Token} {layout child : Layout}
    (h : (layout.strip tokens).Conforms description tokens) (hc : child ∈ layout.children) :
    (child.strip tokens).Conforms description tokens := by
  by_cases hm : child.isMeaningful tokens
  · have hmm := Layout.strip_mem_stripAll hc hm
    rw [← Layout.strip_children] at hmm
    exact h.children _ hmm
  · cases child with
    | leaf token start stop => exact .leaf token
    | node => exact absurd rfl hm

/-- Every node of a layout that conforms without trivia is a token, or stands over what its production says. -/
private theorem admits_of_filed {tree : Tree} {parent : Option Nat} {layout : Layout} (hf : layout.Filed tree parent 0)
    (hc : (layout.strip tree.tokens).Conforms description tree.tokens) (hid : id < layout.size) :
    (tree.node id).isLeaf ∨ ∀ production ∈ description.productions, production.name = (tree.node id).kind →
      production.Admits (((tree.significantChildren id).map fun child => (tree.node child).kind).filter
        (· != errorKind)) := by
  obtain ⟨found, above, hfn, hc, -⟩ := hf.exists_at
    (fun layout hl child hch => conforms_child hl hch) hc (Nat.zero_le id) (by omega)
  have hk : (tree.significantChildren id).map (fun child => (tree.node child).kind) =
      (found.strip tree.tokens).children.map (·.kind tree.tokens) := by
    refine hfn.map_significantChildren fun child _ _ _ hch => ?_
    rw [hch.node_eq]
    cases child <;> rfl
  rw [hk, hfn.node_eq]
  cases found with
  | leaf token start stop => exact .inl rfl
  | node kind start stop children =>
    cases hc with
    | node ha _ => exact .inr ha

/-- Every node of the tree of a source is a token, or stands over what its production says. -/
private theorem admits_parse (hb : Built description grammar)
    (hkept : ∀ production ∈ description.productions, production.inline = false ∧ production.transparent = false)
    (source : Source) (path : String) (cfg : Config) (hid : id < (parse grammar source path cfg).size) :
    ((parse grammar source path cfg).node id).isLeaf ∨ ∀ production ∈ description.productions,
      production.name = ((parse grammar source path cfg).node id).kind →
        production.Admits ((((parse grammar source path cfg).significantChildren id).map fun child =>
          ((parse grammar source path cfg).node child).kind).filter (· != errorKind)) := by
  have hp : ∀ token ∈ tokenize grammar source, token.kind ≠ errorKind := by
    intro token ht heq
    rcases kind_of_mem_reservedKinds hb ht (by rw [heq]; decide) with hbl | ⟨hu, -⟩
    · exact absurd (heq.symm.trans hbl) (by decide)
    · exact absurd (heq.symm.trans hu) (by decide)
  have hd := Draft.conforms_ofForest hb hkept hp cfg
  have hs := Layout.strip_root_ofForest hb.tabulated (tokenize grammar source) cfg source.size
  have htk := (Forest.parse_keepsake grammar (tokenize grammar source) cfg).tokens_eq
  rw [← htk] at hd hs
  have hc := Draft.conforms_of_reserved hb (show documentKind ∈ Grammar.reservedKinds by decide) hd
  rw [← hs] at hc
  rw [parse, Layout.size_ofForest] at hid
  exact admits_of_filed (Layout.filed_ofForest ..) hc hid

/-- Where no production is inline or transparent, the significant children of a node for a production are what one of
its alternatives says, but for skipped tokens. Only literals that are spelled like it have the kind of a group. -/
theorem parse_conforms (hbuild : Grammar.build description = .ok grammar)
    (hkept : ∀ production ∈ description.productions, production.inline = false ∧ production.transparent = false)
    (hsource : (∃ bytes, source = .ofBytes bytes) ∨ ∃ text, source = .ofText (Text.ofString text)) (path : String)
    (config : Config) {tree : Tree} (htree : tree = parse grammar source path config) :
    (∀ production ∈ description.productions, ∀ id < tree.size, (tree.node id).kind = production.name →
      ∃ alternative ∈ production.alternatives,
        (((tree.significantChildren id).map fun child => (tree.node child).kind).filter (· != errorKind)) ∈
          (Grammar.regexOfSymbols alternative.symbols).matches') ∧
    ∀ id < tree.size, (tree.node id).kind ∈ description.hiddenNames →
      (tree.node id).isLeaf ∧ (tree.node id).kind ∈ Grammar.literals description.productions := by
  have hb := built_of_build hbuild
  have hc := Source.coherent_of_read hsource
  subst htree
  constructor
  · intro production hp id hid hk
    have hn : production.name ∈ description.names := mem_map_of_mem hp
    rcases admits_parse hb hkept source path config hid with hl | ha
    · rcases kind_of_isLeaf hb hc.toEncoded path config hl with ht | hr
      · exact absurd (hk ▸ ht) (hb.not_mem_tokenNames hn)
      · exact absurd (hk ▸ hr) (hb.not_mem_reservedKinds hn)
    · exact ha production hp hk.symm
  · intro id hid hh
    have hhs := Grammar.hash_mem_of_mem_hiddenNames hh
    have hr : ((parse grammar source path config).node id).kind ∉ Grammar.reservedKinds :=
      fun hm => Grammar.hash_not_mem_of_mem_reservedKinds hm hhs
    cases hl : ((parse grammar source path config).node id).isLeaf with
    | true =>
      have ht := (kind_of_isLeaf hb hc.toEncoded path config hl).resolve_right hr
      exact ⟨rfl, hb.mem_literals_of_hash ht hhs⟩
    | false =>
      have hn := (kind_of_not_isLeaf hb hc.toEncoded path config hid hl).resolve_right hr
      exact absurd hn (hb.not_mem_names_of_hash hhs)

/-- Lists in brackets have below them what their only alternative says. -/
theorem conforms_of_bracketed : ∃ grammar, Grammar.build Grammar.bracketed = .ok grammar ∧
    ∀ id < (parse grammar (.ofText (Text.ofString "[a,a]")) defaultPath {}).size,
      ((parse grammar (.ofText (Text.ofString "[a,a]")) defaultPath {}).node id).kind = "list" →
        ((((parse grammar (.ofText (Text.ofString "[a,a]")) defaultPath {}).significantChildren id).map fun child =>
          ((parse grammar (.ofText (Text.ofString "[a,a]")) defaultPath {}).node child).kind).filter (· != errorKind)) ∈
          (Grammar.regexOfSymbols [.literal "[",
            .group .optional [.literal "a", .group .star [.literal ",", .literal "a"]], .literal "]"]).matches' := by
  have hok : (Grammar.build Grammar.bracketed).isOk = true := by decide +kernel
  obtain ⟨grammar, hb⟩ := exists_eq_ok hok
  refine ⟨grammar, hb, fun id hid hk => ?_⟩
  obtain ⟨alt, hm, ha⟩ := (parse_conforms hb (by decide) (.inr ⟨"[a,a]", rfl⟩) defaultPath {} rfl).1
    _ mem_cons_self id hid hk
  rw [mem_singleton] at hm
  rwa [hm] at ha

/-! ## A literal with the name of a group -/

/-- Where single characters one after the other end, if they stand at a position. -/
def wordEnd? (subject : Array Glyph) : Regex.Term → Nat → Option Nat
  | .set chars, position => if subject[position]?.any chars.holds then some (position + 1) else none
  | .seq first second, position => (wordEnd? subject first position).bind (wordEnd? subject second)
  | _, _ => none

private theorem run_of_wordEnd? {subject : Array Glyph} {inLoop : Bool} {term : Regex.Term} {cursor : Regex.Cursor}
    {next : Regex.Cursor → Regex.Attempt} {stop : Nat} (h : wordEnd? subject term cursor.position = some stop) :
    Regex.run subject inLoop term cursor next = next { cursor with position := stop } := by
  induction term generalizing cursor next stop with
  | set chars =>
    rw [wordEnd?, Option.ite_none_right_eq_some, Option.any_eq_true] at h
    obtain ⟨⟨glyph, hg, hh⟩, hs⟩ := h
    cases hs
    rw [Regex.run, hg]
    exact if_pos hh
  | seq first second ihfirst ihsecond =>
    rw [wordEnd?, Option.bind_eq_some_iff] at h
    obtain ⟨middle, hf, hsc⟩ := h
    rw [Regex.run, ihfirst hf, ihsecond hsc]
  | _ => cases h

private theorem exists_readString_misnamed : ∃ regex, Regex.readString (Regex.escape "S#1") = .ok regex ∧
    (regex.matchAt (Source.ofText (Text.ofString "S#1")).glyphs 0).map (·.position) = some 3 := by
  have ht : (Regex.readString (Regex.escape "S#1")).toOption.map (fun regex =>
      wordEnd? (Source.ofText (Text.ofString "S#1")).glyphs regex.term 0) = some (some 3) := by decide +kernel
  cases hr : Regex.readString (Regex.escape "S#1") with
  | ok regex =>
    rw [hr] at ht
    have he : wordEnd? (Source.ofText (Text.ofString "S#1")).glyphs regex.term 0 = some 3 := Option.some.inj ht
    refine ⟨regex, rfl, ?_⟩
    rw [Regex.matchAt, run_of_wordEnd? he]
    rfl
  | error =>
    rw [hr] at ht
    cases ht

private theorem exists_scanners_misnamed (hb : Built misnamed grammar) :
    ∃ regex, grammar.scanners = [{ rule := literalRule "S#1", regex }] ∧
      (regex.matchAt (Source.ofText (Text.ofString "S#1")).glyphs 0).map (·.position) = some 3 := by
  obtain ⟨regex, hr, hm⟩ := exists_readString_misnamed
  refine ⟨regex, ?_, hm⟩
  have hc : compileRules [] misnamed.rules = .ok grammar.scanners := hb.scanners_compiled
  have hrl : misnamed.rules = [literalRule "S#1"] := by decide +kernel
  rw [hrl, compileRules, literalRule, hr] at hc
  exact (Except.ok.inj hc).symm

private theorem exists_token_misnamed (hb : Built misnamed grammar) :
    ∃ token others, tokenize grammar (.ofText (Text.ofString "S#1")) = token :: others ∧ token.kind = "S#1" := by
  obtain ⟨regex, hs, hm⟩ := exists_scanners_misnamed hb
  obtain ⟨cursor, hc, hp⟩ := Option.map_eq_some_iff.1 hm
  have hpc : (pieceAt grammar.scanners (Source.ofText (Text.ofString "S#1")).glyphs 0).kind = "S#1" := by
    have hr : Scanner.reach? { rule := literalRule "S#1", regex }
        (Source.ofText (Text.ofString "S#1")).glyphs 0 = some 3 := by
      rw [Scanner.reach?, hc]
      simp only [hp]
      decide +kernel
    rw [hs, pieceAt, best?, bestFrom, hr]
    rfl
  rw [tokenize, piecesFrom, if_pos (by decide)]
  exact ⟨_, _, rfl, hpc⟩

/-- A literal may bring the kind of a group into a tree. -/
theorem hidden_kind_of_literal : ∃ grammar, Grammar.build misnamed = .ok grammar ∧
    (∀ production ∈ misnamed.productions, production.inline = false ∧ production.transparent = false) ∧
    ∃ id < (parse grammar (.ofText (Text.ofString "S#1")) defaultPath {}).size,
      ((parse grammar (.ofText (Text.ofString "S#1")) defaultPath {}).node id).kind ∈ misnamed.hiddenNames := by
  have hok : (Grammar.build misnamed).isOk = true := by decide +kernel
  obtain ⟨grammar, hb⟩ := exists_eq_ok hok
  have hbl := built_of_build hb
  obtain ⟨token, others, ht, hk⟩ := exists_token_misnamed hbl
  obtain ⟨cut, hg⟩ := grown_parse hbl.tabulated (Source.coherent_ofText "S#1") defaultPath {}
  have htr : (parse grammar (.ofText (Text.ofString "S#1")) defaultPath {}).tokens = (token :: others).toArray :=
    ht ▸ (Forest.parse_keepsake grammar _ {}).tokens_eq
  obtain ⟨leaf, hl, htk⟩ := hg.exists_leaf (show 0 < _ by rw [htr]; exact Nat.succ_pos _)
  have hh : misnamed.hiddenNames = ["S#1"] := by decide +kernel
  refine ⟨grammar, hb, by decide, leaf, hl, ?_⟩
  rw [(hg.leaf_kind htk).1, htr, hh, mem_singleton]
  exact hk

end Tree

end TreeLint
