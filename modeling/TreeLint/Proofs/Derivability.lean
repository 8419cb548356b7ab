import Mathlib.Logic.Relation
import TreeLint.Grammar.Build

/-!
# Sentences of a grammar

The flat alternatives of a grammar are read as the rules of a context-free grammar over kinds of tokens.

* `Grammar.Derives`: a sequence of flat symbols derives a sequence of kinds. Its proofs are the finite derivations.
* `Grammar.Generates`: a nonterminal derives a sequence of kinds; these are the sentences of the nonterminal.
* `Grammar.Rewrites`: one step of rewriting. What is derived is reached in some steps (`Derives.rewrites`).

Derivability goes along with concatenation (`derives_append_iff`).
-/

namespace TreeLint

open List

open Relation (ReflTransGen)

namespace Grammar

inductive Derives (alternatives : List FlatAlternative) : List FlatSymbol → List String → Prop
  | nil : Derives alternatives [] []
  | terminal {kind : String} {symbols : List FlatSymbol} {kinds : List String} :
      Derives alternatives symbols kinds → Derives alternatives (.terminal kind :: symbols) (kind :: kinds)
  | nonterminal {alternative : FlatAlternative} {symbols : List FlatSymbol} {first rest : List String} :
      alternative ∈ alternatives → Derives alternatives alternative.symbols first → Derives alternatives symbols rest →
          Derives alternatives (.nonterminal alternative.lhs :: symbols) (first ++ rest)

def Generates (grammar : Grammar) (name : String) (kinds : List String) : Prop :=
  Derives grammar.alternatives.toList [.nonterminal name] kinds

variable {alts : List FlatAlternative} {kinds : List String}

theorem Derives.append {before after : List FlatSymbol} {first rest : List String}
    (hf : Derives alts before first) (hr : Derives alts after rest) :
    Derives alts (before ++ after) (first ++ rest) := by
  induction hf with
  | nil => exact hr
  | terminal _ ih => exact .terminal ih
  | nonterminal hm hs _ _ ih =>
    rw [append_assoc]
    exact .nonterminal hm hs ih

theorem derives_append_iff {before after : List FlatSymbol} : Derives alts (before ++ after) kinds ↔
      ∃ first rest, kinds = first ++ rest ∧ Derives alts before first ∧ Derives alts after rest := by
  constructor
  · intro h
    induction before generalizing kinds with
    | nil => exact ⟨[], kinds, rfl, .nil, h⟩
    | cons symbol before ih =>
      cases h with
      | terminal hr =>
        obtain ⟨first, rest, rfl, hb, ha⟩ := ih hr
        exact ⟨_, rest, rfl, .terminal hb, ha⟩
      | nonterminal hm hs hr =>
        obtain ⟨first, rest, rfl, hb, ha⟩ := ih hr
        exact ⟨_, rest, (append_assoc ..).symm, .nonterminal hm hs hb, ha⟩
  · rintro ⟨first, rest, rfl, hb, ha⟩
    exact hb.append ha

theorem derives_terminals (row : List String) : Derives alts (row.map .terminal) row := by
  induction row with
  | nil => exact .nil
  | cons kind row ih => exact .terminal ih

theorem derives_singleton_iff {name : String} : Derives alts [.nonterminal name] kinds ↔
      ∃ alt ∈ alts, alt.lhs = name ∧ Derives alts alt.symbols kinds := by
  constructor
  · intro h
    cases h with
    | nonterminal hm hs hr =>
      cases hr with
      | nil => exact ⟨_, hm, rfl, by rwa [append_nil]⟩
  · rintro ⟨alt, hm, rfl, hs⟩
    have h := Derives.nonterminal hm hs .nil
    rwa [append_nil] at h

theorem generates_iff {g : Grammar} {name : String} : g.Generates name kinds ↔
      ∃ alt ∈ g.alternatives.toList, alt.lhs = name ∧
        Derives g.alternatives.toList alt.symbols kinds :=
  derives_singleton_iff

/-! ## Rewriting -/

/-- One nonterminal in a list of symbols is replaced by the symbols of one of its alternatives. -/
inductive Rewrites (alternatives : List FlatAlternative) : List FlatSymbol → List FlatSymbol → Prop
  | replace (before after : List FlatSymbol) {alternative : FlatAlternative} : alternative ∈ alternatives →
      Rewrites alternatives (before ++ .nonterminal alternative.lhs :: after) (before ++ (alternative.symbols ++ after))

variable {symbols form next : List FlatSymbol}

private theorem Rewrites.context (h : Rewrites alts form next) (before after : List FlatSymbol) :
    Rewrites alts (before ++ (form ++ after)) (before ++ (next ++ after)) := by
  cases h with
  | replace first last hm =>
    have hs := Rewrites.replace (before ++ first) (last ++ after) hm
    simpa using hs

theorem Rewrites.of_mem {alt : FlatAlternative} (hm : alt ∈ alts) :
    Rewrites alts [.nonterminal alt.lhs] alt.symbols := by
  simpa using Rewrites.replace [] [] hm

theorem rewrites_context (h : ReflTransGen (Rewrites alts) form next) (before after : List FlatSymbol) :
    ReflTransGen (Rewrites alts) (before ++ (form ++ after)) (before ++ (next ++ after)) :=
  h.lift (fun form => before ++ (form ++ after)) fun _ _ hs => hs.context before after

theorem Derives.rewrites {kinds : List String} (h : Derives alts symbols kinds) :
    ReflTransGen (Rewrites alts) symbols (kinds.map .terminal) := by
  induction h with
  | nil => exact .refl
  | @terminal kind symbols kinds _ ih =>
    have hr := rewrites_context ih [.terminal kind] []
    simpa using hr
  | @nonterminal alt symbols first rest hm _ _ ihsub ihrest =>
    have hs := Rewrites.replace [] symbols hm
    have hf := rewrites_context ihsub [] symbols
    have hr := rewrites_context ihrest (first.map .terminal) []
    rw [append_nil, append_nil] at hr
    rw [map_append]
    exact (hf.head hs).trans hr

/-- What derives nothing can be rewritten into nothing, wherever it stands. -/
theorem Derives.rewrites_nil (h : Derives alts symbols []) (before after : List FlatSymbol) :
    ReflTransGen (Rewrites alts) (before ++ (symbols ++ after)) (before ++ after) :=
  rewrites_context h.rewrites before after

end Grammar

end TreeLint
