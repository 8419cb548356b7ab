import TreeLint.Batch
import TreeLint.Proofs.RuleIndependence

/-!
# Batches in any order

The jobs of a batch are given to workers, which finish them in some order, and the lists that they give are collected in
some order. None of this shows in the sorted list: the diagnostics of a job are all in its own file, so the jobs never
mix, and within a job the order is kept.

* `Lint.file_of_lint`: every diagnostic of a source is in its file;
* `Batch.Pool.Step`: what a pool of workers may do next, and `Batch.Pool.collected_of_run`: what it has collected is a
  part of the jobs;
* `Batch.lint_in_any_order`: every run of a pool ends with the diagnostics of the batch, in which each file has the
  diagnostics that it has by itself.
-/

namespace TreeLint

open List

/-! ## The file of a diagnostic -/

private theorem Tree.file_of_mem_problems {g : Grammar} {src : Source} {path : String} {cfg : Config}
    {problem : Problem} (h : problem ∈ (Tree.parse g src path cfg).problems) : problem.span.file = "" := by
  have ht (tokens : Array Token) (chart : Chart) (unparsedFrom : Nat) :
      (Forest.terminalProblem g tokens chart unparsedFrom).span.file = "" := by
    unfold Forest.terminalProblem
    split <;> split <;> rfl
  have hm : problem ∈ lexicalProblems (tokenize g src) ∨
      problem ∈ (Forest.parse g (tokenize g src) cfg).problems :=
    mem_append.mp (mem_mergeSort.mp h)
  rcases hm with hl | hp
  · obtain ⟨token, -, htk⟩ := mem_filterMap.mp hl
    unfold Token.problem? at htk
    split at htk
    · cases htk
      rfl
    · cases htk
  · unfold Forest.parse at hp
    dsimp only at hp
    split at hp
    · obtain ⟨gap, -, rfl⟩ := mem_map.mp hp
      rfl
    · rcases mem_append.mp hp with hg | hr
      · obtain ⟨gap, -, rfl⟩ := mem_map.mp hg
        rfl
      · rw [mem_singleton.mp hr]
        exact ht _ _ _

namespace Lint

variable {g : Grammar} {tree : Tree} {cfg : Config} {suppressions : Suppressions} {rules : List Rule}
  {reported : List String} {diagnostics : List Diagnostic} {src : Source} {path : String}

private theorem exists_of_run_bind {α β : Type} {first : Linting α} {next : α → Linting β} {value : β}
    (h : (((first >>= next).run).run reported).1 = .ok value) :
    ∃ found after, (first.run).run reported = (.ok found, after) ∧ (((next found).run).run after).1 = .ok value := by
  rcases hf : (first.run).run reported with ⟨_ | found, after⟩
  · rw [run_bind_error hf] at h
    cases h
  · rw [run_bind_ok hf] at h
    exact ⟨found, after, rfl, h⟩

private theorem file_of_evaluateAll
    (h : (((evaluateAll tree cfg suppressions rules).run).run reported).1 = .ok diagnostics) :
    ∀ diag ∈ diagnostics, diag.span.file = tree.path := by
  induction rules generalizing reported diagnostics with
  | nil =>
    cases h
    nofun
  | cons rule rules ih =>
    obtain ⟨first, after, hf, h⟩ := exists_of_run_bind h
    obtain ⟨others, last, ho, h⟩ := exists_of_run_bind h
    obtain rfl := Except.ok.inj h
    refine forall_mem_append.mpr ⟨fun diag hm => ?_, ih (congrArg Prod.fst ho)⟩
    exact (stamped (congrArg Prod.fst hf) diag hm).2

theorem file_of_lint (h : TreeLint.lint g rules src path cfg = .ok diagnostics) :
    ∀ diag ∈ diagnostics, diag.span.file = path := by
  obtain ⟨sorted, after, hs, h⟩ := exists_of_run_bind h
  obtain ⟨found, last, hf, hsr⟩ := exists_of_run_bind (congrArg Prod.fst hs)
  obtain rfl := Except.ok.inj hsr
  obtain rfl := Except.ok.inj h
  intro diag hm
  rcases mem_append.mp (Diagnostic.mem_sort.mp hm) with hm | hm
  · obtain ⟨problem, hp, rfl⟩ := mem_map.mp hm
    have hfl := Tree.file_of_mem_problems hp
    simp [problemDiagnostic, hfl]
  · exact file_of_evaluateAll (congrArg Prod.fst hf) diag (Diagnostic.mem_sort.mp hm)

end Lint

namespace Batch

variable {g : Grammar} {rules : List Rule} {cfg : Config} {sources : Sources} {workers : Nat}

/-! ## Jobs -/

def enabled (rules : List Rule) (config : Config) : List Rule :=
  rules.filter fun rule => config.isEnabled rule.id

def runnable (rules : List Rule) (config : Config) : List Rule :=
  (enabled rules config).filter fun rule => rule.defect.isNone

/-- What a job gives, unless there is no source or linting breaks down. -/
def attempt (grammar : Grammar) (rules : List Rule) (config : Config) (job : String × Option Source) :
    Option (List Diagnostic) :=
  job.2.bind fun source => (TreeLint.lint grammar rules source job.1 config).toOption

private theorem job_eq (g : Grammar) (rules : List Rule) (cfg : Config) (src : String × Option Source) :
    job g rules cfg src = (attempt g rules cfg src).getD [] := by
  rcases src with ⟨path, _ | src⟩ <;> rfl

private theorem file_of_mem_job {src : String × Option Source} {diag : Diagnostic}
    (h : diag ∈ job g rules cfg src) : diag.span.file = src.1 := by
  rcases src with ⟨path, _ | src⟩
  · cases h
  · cases hl : TreeLint.lint g rules src path cfg with
    | error => rw [job, hl] at h; cases h
    | ok found =>
      rw [job, hl] at h
      exact Lint.file_of_lint hl diag h

private theorem file_of_mem_defects {diag : Diagnostic} (h : diag ∈ defects rules) : diag.span.file = "" := by
  obtain ⟨rule, -, hr⟩ := mem_filterMap.mp h
  obtain ⟨defect, -, rfl⟩ := Option.map_eq_some_iff.mp hr
  rfl

/-! ## Pools -/

/-- A pool of workers with the jobs of a batch. -/
structure Pool where
  waiting : Sources
  running : Sources
  /-- The jobs that are done, but not collected. -/
  finished : Sources
  /-- The lists that have been collected, in that order. -/
  results : List (List Diagnostic)

namespace Pool

def start (sources : Sources) : Pool where
  waiting := sources
  running := []
  finished := []
  results := []

def IsDone (pool : Pool) : Prop :=
  pool.waiting = [] ∧ pool.running = [] ∧ pool.finished = []

/-- What may happen next: a free worker takes the next job, a worker finishes its job, or a finished job is collected.
A job that gives nothing is only passed over. -/
inductive Step (workers : Nat) (work : String × Option Source → Option (List Diagnostic)) : Pool → Pool → Prop
  | take {job waiting running finished results} : running.length < workers →
      Step workers work ⟨job :: waiting, running, finished, results⟩ ⟨waiting, job :: running, finished, results⟩
  | finish {job waiting before after finished results} :
      Step workers work ⟨waiting, before ++ job :: after, finished, results⟩
        ⟨waiting, before ++ after, job :: finished, results⟩
  | collect {job waiting running before after results} :
      Step workers work ⟨waiting, running, before ++ job :: after, results⟩
        ⟨waiting, running, before ++ after, results ++ (work job).toList⟩

variable {work : String × Option Source → Option (List Diagnostic)} {pool next last : Pool}

/-- The jobs of a pool are those given to it, and its results are those of the jobs collected, in that order. -/
def Holds (sources : Sources) (work : String × Option Source → Option (List Diagnostic)) (pool : Pool) : Prop :=
  ∃ collected : Sources, (collected ++ pool.finished ++ pool.running ++ pool.waiting).Perm sources ∧
    pool.results = collected.filterMap work

theorem Holds.step (h : pool.Holds sources work) (hs : Step workers work pool next) : next.Holds sources work := by
  obtain ⟨collected, hp, hr⟩ := h
  cases hs with
  | @take job waiting running finished results hf =>
    refine ⟨collected, .trans ?_ hp, hr⟩
    have : (job :: running ++ waiting).Perm (running ++ job :: waiting) := perm_middle.symm
    simpa only [append_assoc] using this.append_left (collected ++ finished)
  | @finish job waiting before after finished results =>
    refine ⟨collected, .trans ?_ hp, hr⟩
    have : (job :: finished ++ (before ++ after)).Perm (finished ++ (before ++ job :: after)) := by
      refine .trans ?_ (List.Perm.append_left finished perm_middle.symm)
      exact perm_middle.symm
    simpa only [append_assoc] using (this.append_left collected).append_right waiting
  | @collect job waiting running before after results =>
    refine ⟨collected ++ [job], .trans ?_ hp, ?_⟩
    · have : (job :: (before ++ after)).Perm (before ++ job :: after) := perm_middle.symm
      simpa using ((this.append_left collected).append_right running).append_right waiting
    · rw [filterMap_append, ← hr]
      cases hj : work job <;> simp [hj]

/-- Along a run no job is lost and none is done twice. -/
theorem collected_of_run (hr : Relation.ReflTransGen (Step workers work) (start sources) pool) :
    pool.Holds sources work := by
  induction hr with
  | refl => exact ⟨[], by simp [start], rfl⟩
  | tail _ hs ih => exact ih.step hs

/-- With a worker at least, a pool can go on until everything is collected. -/
private theorem exists_done (hw : 0 < workers) (pool : Pool) :
    ∃ last, Relation.ReflTransGen (Step workers work) pool last ∧ last.IsDone := by
  -- taking, finishing and collecting a job are three steps
  induction hl : 3 * pool.waiting.length + 2 * pool.running.length + pool.finished.length
    using Nat.strong_induction_on generalizing pool with
  | _ left ih =>
    subst hl
    obtain ⟨waiting, running, finished, results⟩ := pool
    have hgo {next : Pool} (hs : Step workers work ⟨waiting, running, finished, results⟩ next)
        (hls : 3 * next.waiting.length + 2 * next.running.length + next.finished.length <
          3 * waiting.length + 2 * running.length + finished.length) :
        ∃ last, Relation.ReflTransGen (Step workers work) ⟨waiting, running, finished, results⟩ last ∧ last.IsDone := by
      obtain ⟨last, hr, hd⟩ := ih _ hls next rfl
      exact ⟨last, .head hs hr, hd⟩
    cases finished with
    | cons job after => exact hgo (@Step.collect _ _ job _ _ [] after _) (by simp)
    | nil =>
      cases running with
      | cons job after => exact hgo (@Step.finish _ _ job _ [] after _ _) (by simp; omega)
      | nil =>
        cases waiting with
        | cons job waiting => exact hgo (.take (by simpa using hw)) (by simp; omega)
        | nil => exact ⟨_, .refl, rfl, rfl, rfl⟩

private theorem flatten_results (hru : Relation.ReflTransGen (Step workers work) (start sources) pool)
    (hd : pool.IsDone) :
    ∃ collected : Sources, collected.Perm sources ∧
      pool.results.flatten = collected.flatMap fun job => (work job).getD [] := by
  obtain ⟨collected, hp, hr⟩ := collected_of_run hru
  obtain ⟨hw, hrn, hf⟩ := hd
  refine ⟨collected, by simpa [hw, hrn, hf] using hp, ?_⟩
  rw [hr]
  clear hp hr
  induction collected with
  | nil => rfl
  | cons job collected ih => cases hj : work job <;> simp [hj, ih]

end Pool

/-! ## Batches -/

private theorem lint_eq (g : Grammar) (rules : List Rule) (sources : Sources) (cfg : Config) :
    lint g rules sources cfg = Diagnostic.sort
      (defects (enabled rules cfg) ++ sources.flatMap (job g (runnable rules cfg) cfg)) :=
  rfl

/-- The diagnostics of one file in a batch: those of its job, and under no name those of broken rules too. -/
private theorem filter_file_lint (hp : (sources.map (·.1)).Nodup) (g : Grammar) (rules : List Rule) (cfg : Config)
    {src : String × Option Source} (hs : src ∈ sources) :
    (lint g rules sources cfg).filter (·.span.file == src.1) = Diagnostic.sort
      ((if src.1 = "" then defects (enabled rules cfg) else []) ++
        job g (runnable rules cfg) cfg src) := by
  have hd : (defects (enabled rules cfg)).filter (·.span.file == src.1) =
      if src.1 = "" then defects (enabled rules cfg) else [] := by
    split
    · rename_i hpt
      rw [filter_eq_self]
      intro diag hm
      rw [file_of_mem_defects hm, hpt]
      rfl
    · rename_i hpt
      rw [filter_eq_nil_iff]
      intro diag hm hf
      rw [file_of_mem_defects hm] at hf
      exact hpt (eq_of_beq hf).symm
  have hj : (sources.flatMap (job g (runnable rules cfg) cfg)).filter (·.span.file == src.1) =
      job g (runnable rules cfg) cfg src :=
    Diagnostic.filter_owner_flatMap (·.1) (fun _ _ _ hm => file_of_mem_job hm) hp hs
  rw [lint_eq, Diagnostic.filter_sort, filter_append, hd, hj]

/-- However many workers there are and in whatever order they finish, a batch of files with different names comes to an
end with one list. It merges the reports of broken rules and the lists of all files and is sorted; and what it holds of
one file does not depend on the other files. -/
theorem lint_in_any_order (hpaths : (sources.map (·.1)).Nodup) (grammar : Grammar) (rules : List Rule) (config : Config)
    (hworkers : 0 < workers) {pool : Pool}
    (hrun : Relation.ReflTransGen (Pool.Step workers (attempt grammar (runnable rules config) config))
      (.start sources) pool) :
    (∃ last, Relation.ReflTransGen (Pool.Step workers (attempt grammar (runnable rules config) config)) pool last ∧
      last.IsDone) ∧
    (pool.IsDone → Diagnostic.sort (defects (enabled rules config) ++ pool.results.flatten) =
      lint grammar rules sources config) ∧
    (lint grammar rules sources config).Perm
      (defects (enabled rules config) ++ sources.flatMap (job grammar (runnable rules config) config)) ∧
    ((lint grammar rules sources config).Pairwise fun first second => first.precedes second) ∧
    ∀ source ∈ sources, (lint grammar rules sources config).filter (·.span.file == source.1) = Diagnostic.sort
      ((if source.1 = "" then defects (enabled rules config) else []) ++
        job grammar (runnable rules config) config source) := by
  refine ⟨Pool.exists_done hworkers pool, fun hd => ?_, mergeSort_perm _ _, Diagnostic.pairwise_sort _,
    fun source hs => filter_file_lint hpaths grammar rules config hs⟩
  obtain ⟨collected, hp, hr⟩ := Pool.flatten_results hrun hd
  rw [hr, lint_eq]
  simp only [← job_eq]
  refine Diagnostic.sort_congr fun key => ?_
  -- each file has one job, so jobs that agree on a key are in the same place of every order
  rw [filter_append, filter_append,
    Diagnostic.filter_key_flatMap_perm (·.1) (fun _ _ _ hm => file_of_mem_job hm) hpaths hp key]

/-- Two workers, of which the one with the later file is done first. -/
theorem lint_in_any_order_of_overtaking : ∃ grammar, Grammar.build Grammar.loop = .ok grammar ∧
    Diagnostic.sort (defects (enabled [Lint.clashRule grammar "r" "m" (some (.undefinedReference "x"))] {}) ++
      ((attempt grammar [] {} ("a", some (.ofText (Text.ofString "b")))).toList ++
        (attempt grammar [] {} ("", some (.ofText (Text.ofString "a")))).toList).flatten) =
    lint grammar [Lint.clashRule grammar "r" "m" (some (.undefinedReference "x"))]
      [("", some (.ofText (Text.ofString "a"))), ("a", some (.ofText (Text.ofString "b")))] := by
  obtain ⟨grammar, hb⟩ := Grammar.exists_build_loop
  refine ⟨grammar, hb, ?_⟩
  have hr (work : String × Option Source → Option (List Diagnostic)) (first second : String × Option Source) :
      Relation.ReflTransGen (Pool.Step 2 work) (.start [first, second])
        ⟨[], [], [], [] ++ (work second).toList ++ (work first).toList⟩ :=
    .head (.take Nat.two_pos) <| .head (.take Nat.one_lt_two) <|
      .head (@Pool.Step.finish _ _ second _ [] [first] _ _) <| .head (@Pool.Step.collect _ _ second _ _ [] [] _) <|
        .head (@Pool.Step.finish _ _ first _ [] [] _ _) <| .single (@Pool.Step.collect _ _ first _ _ [] [] _)
  exact (lint_in_any_order (by decide) grammar [Lint.clashRule grammar "r" "m" (some (.undefinedReference "x"))] {}
    (by decide) (hr _ ("", some (.ofText (Text.ofString "a"))) ("a", some (.ofText (Text.ofString "b"))))).2.1
      ⟨rfl, rfl, rfl⟩

end Batch

end TreeLint
