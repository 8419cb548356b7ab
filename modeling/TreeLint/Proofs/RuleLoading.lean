import TreeLint.Proofs.CheckedGrammar
import TreeLint.Rule.Reader

/-!
# Loading rules

The forms of a text are compiled one by one, and a form that fails takes nothing away from the others: what is loaded
are the rules of the forms that compile, each name once (`Rule.firstOfEach`), and every other form gives one failure.
-/

namespace TreeLint

open List

namespace Rule

/-- Of the rules with one name, the first. -/
def firstOfEach : List Rule → List Rule
  | [] => []
  | rule :: rules => rule :: (firstOfEach rules).filter (·.id != rule.id)

/-- Whether a form describes a rule that compiles. -/
def compiles (grammar : Grammar) (form : Sexp) : Bool :=
  (ofSexp grammar form).isOk

/-- The rules of the forms that compile. -/
def compiled (grammar : Grammar) (forms : List Sexp) : List Rule :=
  forms.filterMap fun form => (ofSexp grammar form).toOption

private theorem any_id_firstOfEach (id : String) (rules : List Rule) :
    (firstOfEach rules).any (·.id == id) = rules.any (·.id == id) := by
  induction rules with
  | nil => rfl
  | cons rule rules ih =>
    rw [firstOfEach, any_cons, any_cons, any_filter, ← ih]
    by_cases hid : rule.id = id
    · simp [hid]
    · have ho : (fun other : Rule => other.id != rule.id && other.id == id) = (·.id == id) := by
        funext other
        by_cases heq : other.id = id
        · simp [heq, Ne.symm hid]
        · simp [heq]
      rw [ho]

private theorem firstOfEach_append_singleton (rules : List Rule) (rule : Rule) : firstOfEach (rules ++ [rule]) =
      if rules.any (·.id == rule.id) then firstOfEach rules else firstOfEach rules ++ [rule] := by
  induction rules with
  | nil => rfl
  | cons first rules ih =>
    rw [cons_append, firstOfEach, ih, any_cons, firstOfEach]
    by_cases hid : first.id = rule.id
    · split <;> simp [hid]
    · split <;> simp_all [Ne.symm hid]

private theorem nodup_ids_firstOfEach (rules : List Rule) : ((firstOfEach rules).map Rule.id).Nodup := by
  induction rules with
  | nil => exact nodup_nil
  | cons rule rules ih =>
    rw [firstOfEach, map_cons, nodup_cons]
    refine ⟨fun hm => ?_, ih.sublist (filter_sublist.map _)⟩
    obtain ⟨other, ho, heq⟩ := mem_map.1 hm
    simpa [heq] using (mem_filter.1 ho).2

/-- That compiling the rule of a form breaks down. -/
def Breaks (grammar : Grammar) (form : Sexp) : Prop :=
  ∃ breakdown, ofSexp grammar form = .error (.breakdown breakdown)

/-- What is loaded once some forms have been gone through. -/
structure Loaded.Holds (grammar : Grammar) (forms : List Sexp) (loaded : Loaded) : Prop where
  rules_eq : loaded.rules = firstOfEach (compiled grammar forms)
  length_eq : loaded.rules.length + loaded.failures.length = forms.length

variable {g : Grammar} {before forms : List Sexp} {loaded : Loaded}

theorem Loaded.Holds.add (h : loaded.Holds g before) (form : Sexp) :
    (Breaks g form ∧ ∃ breakdown, loaded.add g form = .error breakdown) ∨
    ¬Breaks g form ∧ ∃ next, loaded.add g form = .ok next ∧ next.Holds g (before ++ [form]) := by
  have hc : compiled g (before ++ [form]) =
      compiled g before ++ (ofSexp g form).toOption.toList := by
    rw [compiled, filterMap_append, filterMap_cons, filterMap_nil]
    cases (ofSexp g form).toOption <;> rfl
  have hl := h.length_eq
  unfold Loaded.add Breaks
  cases hr : ofSexp g form with
  | error stop =>
    rw [hr] at hc
    cases stop with
    | breakdown breakdown => exact .inl ⟨⟨breakdown, rfl⟩, breakdown, rfl⟩
    | fault failure =>
      refine .inr ⟨fun hb => (by cases hb.choose_spec), _, rfl, ?_, ?_⟩
      · rw [hc, h.rules_eq]
        exact congrArg _ (append_nil _).symm
      · simp only [length_append, length_singleton]
        omega
  | ok rule =>
    rw [hr] at hc
    have hf := firstOfEach_append_singleton (compiled g before) rule
    rw [← any_id_firstOfEach, ← h.rules_eq] at hf
    refine .inr ⟨fun hb => (by cases hb.choose_spec), ?_⟩
    dsimp only
    split
    next ht =>
      rw [if_pos ht] at hf
      refine ⟨_, rfl, by rw [hc]; exact hf.symm, ?_⟩
      simp only [length_append, length_singleton]
      omega
    next hfr =>
      rw [if_neg hfr] at hf
      refine ⟨_, rfl, by rw [hc]; exact hf.symm, ?_⟩
      simp only [length_append, length_singleton]
      omega

theorem Loaded.Holds.addAll (h : loaded.Holds g before) : ((∃ form ∈ forms, Breaks g form) ∧
      ∃ breakdown, forms.foldlM (Loaded.add g) loaded = .error breakdown) ∨
    (∀ form ∈ forms, ¬Breaks g form) ∧
      ∃ last, forms.foldlM (Loaded.add g) loaded = .ok last ∧ last.Holds g (before ++ forms) := by
  induction forms generalizing before loaded with
  | nil => exact .inr ⟨forall_mem_nil _, loaded, rfl, by rwa [append_nil]⟩
  | cons form forms ih =>
    rw [exists_mem_cons_iff, forall_mem_cons, foldlM_cons]
    obtain ⟨hb, breakdown, ha⟩ | ⟨hs, next, ha, hh⟩ := h.add form
    · exact .inl ⟨.inl hb, breakdown, by rw [ha]; rfl⟩
    · rw [ha, append_cons]
      exact (ih hh).imp (fun h => ⟨.inr h.1, h.2⟩) fun h => ⟨⟨hs, h.1⟩, h.2⟩

private theorem compiled_filter (forms : List Sexp) :
    compiled g (forms.filter (compiles g)) = compiled g forms := by
  rw [compiled, filterMap_filter, compiled]
  congr 1
  funext form
  rw [compiles]
  cases ofSexp g form <;> rfl

/-- A text loads just if compiling none of its forms breaks down. Every form then gives a rule or a failure, and the
rules are those of the forms that compile, in order, of each name the first. So forms that fail can come and go. A text
that does not read gives one failure. -/
theorem load_isolates (grammar : Grammar) (text : String) : (∀ forms, Sexp.readAll text = .ok forms →
      ((∃ loaded, load grammar text = .ok loaded) ↔ ∀ form ∈ forms, ¬Breaks grammar form) ∧
      ∀ loaded, load grammar text = .ok loaded → loaded.rules.length + loaded.failures.length = forms.length ∧
        loaded.rules = firstOfEach (compiled grammar forms) ∧ (loaded.rules.map Rule.id).Nodup ∧
        ∀ other others loaded', Sexp.readAll other = .ok others → load grammar other = .ok loaded' →
          others.filter (compiles grammar) = forms.filter (compiles grammar) → loaded'.rules = loaded.rules) ∧
    ∀ fault, Sexp.readAll text = .error fault →
      ∃ failure, load grammar text = .ok { rules := [], failures := [failure] } := by
  have hl : ∀ {text forms}, Sexp.readAll text = .ok forms →
      ((∃ form ∈ forms, Breaks grammar form) ∧ ∃ breakdown, load grammar text = .error breakdown) ∨
      (∀ form ∈ forms, ¬Breaks grammar form) ∧ ∃ loaded, load grammar text = .ok loaded ∧ loaded.Holds grammar forms := by
    intro text forms hr
    have he : Loaded.Holds grammar [] {} := ⟨rfl, rfl⟩
    rw [load, hr]
    exact he.addAll
  have hh : ∀ {text forms loaded}, Sexp.readAll text = .ok forms → load grammar text = .ok loaded →
      loaded.Holds grammar forms := by
    intro text forms loaded hr hld
    obtain ⟨-, breakdown, hf⟩ | ⟨-, loaded', hlo, hh⟩ := hl hr
    · cases hf.symm.trans hld
    · cases hlo.symm.trans hld
      exact hh
  refine ⟨fun forms hr => ⟨?_, fun loaded hld => ?_⟩, fun fault hr => ⟨_, by rw [load, hr]⟩⟩
  · obtain ⟨⟨form, hfr, hb⟩, breakdown, hf⟩ | ⟨hs, loaded, hlo, -⟩ := hl hr
    · refine iff_of_false (fun h => ?_) fun hs => hs form hfr hb
      cases hf.symm.trans h.choose_spec
    · exact iff_of_true ⟨loaded, hlo⟩ hs
  · have h := hh hr hld
    refine ⟨h.length_eq, h.rules_eq, ?_, fun other others loaded' ho hl' hsa => ?_⟩
    · rw [h.rules_eq]
      exact nodup_ids_firstOfEach _
    · rw [(hh ho hl').rules_eq, h.rules_eq, ← compiled_filter others, hsa, compiled_filter]

private theorem ofPattern_ne_breakdown {draft : Draft} (hc : draft.condition = none) (pattern : Pattern)
    (breakdown : Breakdown) : ofPattern draft pattern ≠ .error (.breakdown breakdown) := by
  unfold ofPattern Draft.readCondition
  rw [hc]
  intro h
  split at h
  · cases Except.error.inj h
  · cases h

/-- A rule and a form that is none. -/
theorem load_isolates_of_one : ∃ grammar, Grammar.build Grammar.loop = .ok grammar ∧
    ∃ loaded, load grammar "(rule \"a\" (pattern _) (message \"m\")) (rule)" = .ok loaded ∧
      loaded.rules.length + loaded.failures.length = 2 ∧ (loaded.rules.map Rule.id).Nodup := by
  obtain ⟨grammar, hb⟩ := Grammar.exists_build_loop
  have hs : Sexp.scan 0 .between "(rule \"a\" (pattern _) (message \"m\")) (rule)".toList =
      [.opening .round, .atom "rule".toList, .string ['a'], .opening .round, .atom "pattern".toList, .atom "_".toList,
        .closing .round ") (message \"m\")) (rule)".toList, .opening .round, .atom "message".toList, .string ['m'],
        .closing .round ")) (rule)".toList, .closing .round ") (rule)".toList, .opening .round, .atom "rule".toList,
        .closing .round ")".toList] := rfl
  have ha : ∀ word ∈ ["rule", "pattern", "message", "_"], Number.ofWord? word.toList = none := by decide +kernel
  simp only [forall_mem_cons] at ha
  have hr : Sexp.readAll "(rule \"a\" (pattern _) (message \"m\")) (rule)" =
      .ok [.list [.symbol "rule", .string "a", .list [.symbol "pattern", .symbol "_"],
        .list [.symbol "message", .string "m"]], .list [.symbol "rule"]] := by
    rw [Sexp.readAll, Sexp.readData, hs]
    simp only [Sexp.assemble, Sexp.Datum.ofAtom, ha]
    rfl
  obtain ⟨pattern, hp⟩ : ∃ pattern, Pattern.compileGiven grammar (.form (.symbol "_")) = .ok pattern := ⟨_, rfl⟩
  obtain ⟨hl, hrl⟩ := (load_isolates grammar _).1 _ hr
  obtain ⟨loaded, hld⟩ := hl.2 (by
    rw [forall_mem_cons, forall_mem_singleton]
    refine ⟨fun hbr => ?_, fun hbr => by cases hbr.choose_spec⟩
    obtain ⟨breakdown, h⟩ := hbr
    change Pattern.compileGiven grammar (.form (.symbol "_")) >>= ofPattern { id := "a", message := "m" } = _ at h
    rw [hp] at h
    exact @ofPattern_ne_breakdown { id := "a", message := "m" } rfl pattern breakdown h)
  obtain ⟨hln, -, hn, -⟩ := hrl loaded hld
  exact ⟨grammar, hb, loaded, hld, hln, hn⟩

end Rule

end TreeLint
