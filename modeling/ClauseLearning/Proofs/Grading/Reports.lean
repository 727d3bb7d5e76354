import ClauseLearning.CommandLine
import ClauseLearning.Proofs.Dimacs.Acceptance
import ClauseLearning.Proofs.Engine.Correctness
import ClauseLearning.Proofs.Files.Collecting

/-!
# Reports of a clause-learning solver

A clause-learning solver decides every file as a fresh engine would. Where the calls of the system
succeed, its report has one outcome for each file below the two directories.

* `Solver.solve_cdcl`: the solver is right.
* `Outcome.Judges`: the outcome of a file by itself.
* `Solver.judges_checkFile`: what was decided before a file makes no difference to its outcome.
* `grade_judges`: the report on two directories.
* `longNamed_passed_over`: a report without the outcome of a file.
-/

namespace ClauseLearning

/-- A file has been read, and its bytes are a text that is accepted, with this result. -/
def Dimacs.Encodes (content : Except SystemError ByteArray) (d : Dimacs.Document) : Prop :=
  ∃ bytes text, content = .ok bytes ∧ String.fromUTF8? bytes = some text ∧ Dimacs.parse text = .ok d

/-- Some assignment makes the formula of the text true. -/
def Dimacs.Document.Satisfiable (d : Dimacs.Document) : Prop :=
  ∃ a, d.formula.eval a = true

theorem Dimacs.Encodes.unique {content : Except SystemError ByteArray} {d d' : Dimacs.Document}
    (h : Dimacs.Encodes content d) (h' : Dimacs.Encodes content d') : d = d' := by
  obtain ⟨bytes, text, hbytes, htext, hd⟩ := h
  obtain ⟨bytes', text', hbytes', htext', hd'⟩ := h'
  obtain rfl := Except.ok.inj (hbytes.symm.trans hbytes')
  obtain rfl := Option.some.inj (htext.symm.trans htext')
  exact Except.ok.inj (hd.symm.trans hd')

theorem Dimacs.Encodes.exists_flatten {content : Except SystemError ByteArray} {d : Dimacs.Document}
    (h : Dimacs.Encodes content d) : ∃ f, flatten d.formula = .ok f := by
  obtain ⟨-, text, -, -, hd⟩ := h
  exact Dimacs.exists_flatten hd

/-- What is said of a file with this label, where reading it gives this content, by an engine that
decides nothing else. A file that cannot be read is one that is not accepted. -/
structure Outcome.Judges (settings : Config) (path : Path) (expected : Expected)
    (content : Except SystemError ByteArray) (o : Outcome) : Prop where
  path_eq : o.path = path
  expected_eq : o.expected = expected
  passed_iff : o.passed = true ↔ ∃ d, Dimacs.Encodes content d ∧ (d.Satisfiable ↔ expected = .sat)
  error_iff : o.error ≠ none ↔ ¬∃ d, Dimacs.Encodes content d
  stats_none_iff : o.stats = none ↔ o.error ≠ none
  stats_eq : ∀ d, Dimacs.Encodes content d → ∃ f, flatten d.formula = .ok f ∧
    o.stats = some (Engine.ofFormula f settings).solve.2.stats

/-! ## One formula -/

namespace Solver

variable {s : Solver}

/-- A formula changes only the counters. -/
theorem exists_stats_solve (s : Solver) (f : Formula) : ∃ stats, (s.solve f).2 = { s with stats } := by
  rw [solve]
  split
  · split <;> exact ⟨s.stats, rfl⟩
  · split <;> exact ⟨_, rfl⟩

theorem exists_stats_checkFile (s : Solver) (fs : FileSystem) (path : Path) :
    ∃ stats, (s.checkFile fs path).2 = { s with stats } := by
  rw [checkFile]
  split
  · exact ⟨s.stats, rfl⟩
  · exact exists_stats_solve s _

/-- A clause-learning solver is right, and its counters are those of a fresh engine. -/
theorem solve_cdcl (hs : s.algorithm = .cdcl) (f : Formula) :
    ∃ sat : Bool, (s.solve f).1 = .ok sat ∧ (sat = true ↔ Satisfiable f) ∧
      (s.solve f).2.stats = some (Engine.ofFormula f s.settings).solve.2.stats := by
  have hright := Session.solve_ofFormula f s.settings
  rw [solve, hs]
  generalize (Engine.ofFormula f s.settings).solve = answer at hright ⊢
  obtain ⟨v, e⟩ := answer
  rcases hright with ⟨rfl, hsat⟩ | ⟨rfl, hunsat⟩
  · exact ⟨true, rfl, by simpa using hsat, rfl⟩
  · exact ⟨false, rfl, by simpa using hunsat, rfl⟩

end Solver

/-! ## One file -/

section File

variable {s : Solver} {fs : FileSystem} {path : Path} {content : Except SystemError ByteArray}
  {f : Formula}

theorem FileSystem.readText_eq_ok_iff {text : String} : fs.readText path = .ok text ↔
    ∃ bytes, fs.content path = .ok bytes ∧ String.fromUTF8? bytes = some text := by
  rw [readText]
  cases hcontent : fs.content path with
  | error cause => simp
  | ok bytes => cases htext : String.fromUTF8? bytes <;> simp [htext]

theorem FileSystem.readFormula_eq_ok_iff : fs.readFormula path = .ok f ↔
    ∃ d, Dimacs.Encodes (fs.content path) d ∧ flatten d.formula = .ok f := by
  simp only [readFormula, bind_eq_ok_iff, mapError_eq_ok_iff, readText_eq_ok_iff, Dimacs.Encodes]
  constructor
  · rintro ⟨text, ⟨bytes, hbytes, htext⟩, d, hd, hf⟩
    exact ⟨d, ⟨bytes, text, hbytes, htext, hd⟩, hf⟩
  · rintro ⟨d, ⟨bytes, text, hbytes, htext, hd⟩, hf⟩
    exact ⟨text, ⟨bytes, hbytes, htext⟩, d, hd, hf⟩

namespace Outcome

variable {settings : Config} {expected : Expected} {elapsed : Duration} {d : Dimacs.Document}

theorem judges_error {e : CheckError} (h : ¬∃ d, Dimacs.Encodes content d) :
    (ofResult ⟨path, expected⟩ s elapsed (.error e)).Judges settings path expected content where
  path_eq := rfl
  expected_eq := rfl
  passed_iff :=
    ⟨fun hpassed => absurd hpassed Bool.false_ne_true, fun ⟨d, hd, _⟩ => absurd ⟨d, hd⟩ h⟩
  error_iff := by simp [ofResult, h]
  stats_none_iff := by simp [ofResult]
  stats_eq d hd := absurd ⟨d, hd⟩ h

theorem judges_ok {sat : Bool} (hd : Dimacs.Encodes content d) (hf : flatten d.formula = .ok f)
    (hsat : sat = true ↔ d.Satisfiable)
    (hstats : s.stats = some (Engine.ofFormula f settings).solve.2.stats) :
    (ofResult ⟨path, expected⟩ s elapsed (.ok sat)).Judges settings path expected content where
  path_eq := rfl
  expected_eq := rfl
  passed_iff := by
    have hpassed : (sat == (expected == .sat)) = true ↔ (d.Satisfiable ↔ expected = .sat) := by
      rw [← hsat, beq_iff_eq, Bool.eq_iff_iff, beq_iff_eq]
    exact hpassed.trans
      ⟨fun h => ⟨d, hd, h⟩, fun ⟨_, hd', h⟩ => by rwa [hd.unique hd']⟩
  error_iff := by simpa [ofResult] using ⟨d, hd⟩
  stats_none_iff := by simp [ofResult, hstats]
  stats_eq d' hd' := ⟨f, hd.unique hd' ▸ hf, hstats⟩

end Outcome

/-- The outcome of a file does not depend on what was decided before it. -/
theorem Solver.judges_checkFile (hs : s.algorithm = .cdcl) (fs : FileSystem) (path : Path)
    (expected : Expected) (elapsed : Duration) :
    (Outcome.ofResult ⟨path, expected⟩ (s.checkFile fs path).2 elapsed
      (s.checkFile fs path).1).Judges s.settings path expected (fs.content path) := by
  rw [checkFile]
  cases hread : fs.readFormula path with
  | error e =>
    refine Outcome.judges_error ?_
    rintro ⟨d, hd⟩
    obtain ⟨f, hf⟩ := hd.exists_flatten
    rw [FileSystem.readFormula_eq_ok_iff.mpr ⟨d, hd, hf⟩] at hread
    cases hread
  | ok f =>
    obtain ⟨d, hd, hf⟩ := FileSystem.readFormula_eq_ok_iff.mp hread
    obtain ⟨sat, hresult, hsat, hstats⟩ := solve_cdcl hs f
    have hformula : Satisfiable f ↔ d.Satisfiable :=
      exists_congr fun a => (d.formula.eval_iff_satisfies a hf).symm
    simp only [hresult]
    exact Outcome.judges_ok hd hf (hsat.trans hformula) hstats

end File

/-! ## All files -/

/-- The outcomes are those of the files at the paths, in order, each judged by itself. -/
def FileSystem.Judges (fs : FileSystem) (settings : Config) (paths : List Path) (expected : Expected)
    (outcomes : List Outcome) : Prop :=
  List.Forall₂ (fun path o => o.Judges settings path expected (fs.content path)) paths outcomes

namespace Solver

variable {s : Solver} {fs : FileSystem}

/-- The cases behind others are decided by a solver with the same settings. -/
theorem exists_checkCases_append (s : Solver) (fs : FileSystem) (times : Nat → Duration) (number : Nat)
    (cases cases' : List Case) : ∃ stats,
    s.checkCases fs times number (cases ++ cases') = s.checkCases fs times number cases ++
      ({ s with stats } : Solver).checkCases fs times (number + cases.length) cases' := by
  induction cases generalizing s number with
  | nil => exact ⟨s.stats, rfl⟩
  | cons c cases ih =>
    obtain ⟨stats, hkeeps⟩ := s.exists_stats_checkFile fs c.path
    obtain ⟨stats', happend⟩ := ih { s with stats } (number + 1)
    refine ⟨stats', ?_⟩
    rw [List.cons_append, checkCases, checkCases, List.cons_append]
    simp only [hkeeps]
    rw [happend, List.length_cons, Nat.add_right_comm, Nat.add_assoc]

/-- Each case is judged by itself. -/
theorem judges_checkCases (hs : s.algorithm = .cdcl) (fs : FileSystem) (times : Nat → Duration)
    (number : Nat) (paths : List Path) (expected : Expected) :
    fs.Judges s.settings paths expected (s.checkCases fs times number (paths.map (⟨·, expected⟩))) := by
  induction paths generalizing s number with
  | nil => exact .nil
  | cons path paths ih =>
    obtain ⟨stats, hkeeps⟩ := s.exists_stats_checkFile fs path
    have hfirst := judges_checkFile hs fs path expected (times number)
    rw [List.map_cons, checkCases]
    -- The solver of the remaining files differs from `s` in its counters only.
    simp only [hkeeps] at hfirst ⊢
    exact .cons hfirst (ih (s := { s with stats }) hs _)

end Solver

/-- The path has these files below it, and the calls of the system succeed for them: it leads to
nothing, or it leads to a directory that the system shows. -/
inductive FileSystem.Presents (fs : FileSystem) (dir : Path) : Directory → Prop where
  | missing : fs.kind? dir = none → Presents fs dir .empty
  | shown {d : Directory} : d.Valid → fs.Shows dir d → Presents fs dir d

/-- The outcomes are those of the files below a directory in the order of their paths, each judged by
itself. -/
def Directory.Judged (d : Directory) (settings : Config) (dir : Path) (expected : Expected)
    (outcomes : List Outcome) : Prop :=
  ∃ files, d.Lists dir files ∧
    List.Forall₂ (fun x o => o.Judges settings (dir.below x.1) expected x.2) files outcomes

/-- Where the calls succeed, what is collected are the files below the directory. -/
theorem FileSystem.Presents.exists_found {fs : FileSystem} {dir : Path} {d : Directory}
    (h : fs.Presents dir d) : ∃ found, fs.collectFiles dir = .ok found ∧
      ∀ settings expected outcomes, fs.Judges settings found.paths expected outcomes →
        d.Judged settings dir expected outcomes := by
  cases h with
  | missing hnone =>
    refine ⟨_, collectFiles_of_none hnone, fun settings expected outcomes hjudges => ?_⟩
    have hlists : Directory.empty.Lists dir [] :=
      ⟨fun names content => by cases names <;> simp [Directory.hasFile_cons, Directory.not_hasFile_nil,
        Directory.find?], .nil⟩
    cases hjudges
    exact ⟨[], hlists, .nil⟩
  | shown hd hshows =>
    refine ⟨_, hshows.collectFiles_eq hd, fun settings expected outcomes hjudges => ?_⟩
    have hlists := Directory.lists_sortedFiles hd dir
    -- What the system says of the files is what the tree has.
    have hcontent : (d.sortedFiles.map fun names => (names, d.contentOf names)) =
        d.sortedFiles.map fun names => (names, fs.content (dir.below names)) :=
      List.map_congr_left fun names hmem => by
        rw [(hshows.below.of_hasFile ((Directory.hasFile_iff hd).mpr ⟨hmem, rfl⟩)).2]
    refine ⟨_, hlists, ?_⟩
    rw [hcontent, List.forall₂_map_left_iff]
    exact List.forall₂_map_left_iff.mp hjudges

/-- Every file has its outcome. -/
theorem Directory.Judged.exists_outcome {d : Directory} {settings : Config} {dir : Path}
    {expected : Expected} {outcomes : List Outcome} (h : d.Judged settings dir expected outcomes)
    {names : List FileName} {content : Except SystemError ByteArray} (hfile : d.HasFile names content) :
    ∃ o ∈ outcomes, o.Judges settings (dir.below names) expected content := by
  obtain ⟨files, hfiles, houtcomes⟩ := h
  have hmem := (hfiles.mem_iff names content).mpr hfile
  clear hfiles
  induction houtcomes with
  | nil => exact absurd hmem List.not_mem_nil
  | cons hfirst _ ih =>
    rcases List.mem_cons.mp hmem with rfl | hmem
    · exact ⟨_, List.mem_cons_self, hfirst⟩
    · obtain ⟨o, ho, hjudges⟩ := ih hmem
      exact ⟨o, List.mem_cons_of_mem _ ho, hjudges⟩

/-! ## Reports -/

theorem Report.ofOutcomes_counts (s : Solver) (outcomes : List Outcome) :
    (ofOutcomes s outcomes).passed + (ofOutcomes s outcomes).failed = outcomes.length := by
  have : outcomes.countP Outcome.passed ≤ outcomes.length := List.countP_le_length
  simp only [ofOutcomes]
  omega

theorem Report.allPassed_ofOutcomes (s : Solver) (outcomes : List Outcome) :
    (ofOutcomes s outcomes).allPassed = true ↔ ∀ o ∈ outcomes, o.passed = true := by
  have : outcomes.countP Outcome.passed ≤ outcomes.length := List.countP_le_length
  rw [← List.countP_eq_length, allPassed, beq_iff_eq]
  simp only [ofOutcomes]
  omega

theorem Report.isSome_toJson?_iff (r : Report) :
    r.toJson?.isSome = true ↔ ∀ o ∈ r.outcomes, o.path.text?.isSome = true := by
  have hmembers : ∀ outcomes : List Outcome, (outcomes.mapM Outcome.toJson?).isSome = true ↔
      ∀ o ∈ outcomes, o.path.text?.isSome = true := by
    intro outcomes
    induction outcomes with
    | nil => simp
    | cons o outcomes ih =>
      rw [List.forall_mem_cons, ← ih, List.mapM_cons, Outcome.toJson?]
      cases o.path.text? <;> cases outcomes.mapM Outcome.toJson? <;> simp
  rw [← hmembers, toJson?]
  cases r.outcomes.mapM Outcome.toJson? <;> simp

theorem code_verdictOutput (r : Report) (stdout : String) :
    (verdictOutput r stdout).code = 0 ↔ r.allPassed = true := by
  rw [verdictOutput]
  split <;> simp_all

/-- A report in JSON succeeds only if all its paths are texts. -/
theorem code_reportOutput (r : Report) (json : Bool) : (reportOutput r json).code = 0 ↔
    r.allPassed = true ∧ (json = true → ∀ o ∈ r.outcomes, o.path.text?.isSome = true) := by
  rw [reportOutput, ← r.isSome_toJson?_iff]
  cases json with
  | false => simp [code_verdictOutput]
  | true => cases r.toJson? <;> simp [code_verdictOutput]

section Reports

variable {s : Solver} {fs : FileSystem} {times : Nat → Duration} {sat unsat : Path} {r : Report}

theorem grade_eq_ok_iff : grade s fs times sat unsat = .ok r ↔ ∃ satFound unsatFound,
    fs.collectFiles sat = .ok satFound ∧ fs.collectFiles unsat = .ok unsatFound ∧
      .ofOutcomes s (s.checkCases fs times 0 (satFound.paths.map (⟨·, .sat⟩) ++
        unsatFound.paths.map (⟨·, .unsat⟩))) = r := by
  simp only [grade, casesOf, bind_eq_ok_iff]
  constructor
  · rintro ⟨cases, ⟨satFound, hsat, unsatFound, hunsat, hcases⟩, hr⟩
    cases hcases
    exact ⟨satFound, unsatFound, hsat, hunsat, Except.ok.inj hr⟩
  · rintro ⟨satFound, unsatFound, hsat, hunsat, rfl⟩
    exact ⟨_, ⟨satFound, hsat, unsatFound, hunsat, rfl⟩, rfl⟩

/-- A call that asks for a report succeeds if every outcome has passed and the report can be written. -/
theorem code_answer_grade (q : Request) (hcommand : q.command = .grade sat unsat)
    (hsolver : q.solver = s) (hr : grade s fs times sat unsat = .ok r) :
    (q.answer fs times).code = 0 ↔ (∀ x ∈ r.outcomes, x.passed = true) ∧
      (q.json = true → ∀ x ∈ r.outcomes, x.path.text?.isSome = true) := by
  have hpassed : r.allPassed = true ↔ ∀ x ∈ r.outcomes, x.passed = true := by
    obtain ⟨_, _, -, -, rfl⟩ := grade_eq_ok_iff.mp hr
    exact Report.allPassed_ofOutcomes _ _
  rw [Request.answer, hcommand, hsolver]
  simp only [gradeOutput, hr, code_reportOutput, hpassed]

/-- The outcomes of a report are those of the satisfiable instances and then those of the others. -/
theorem exists_judges (hs : s.algorithm = .cdcl) (fs : FileSystem) (times : Nat → Duration)
    (satPaths unsatPaths : List Path) : ∃ satOutcomes unsatOutcomes,
      s.checkCases fs times 0 (satPaths.map (⟨·, .sat⟩) ++ unsatPaths.map (⟨·, .unsat⟩)) =
        satOutcomes ++ unsatOutcomes ∧
      fs.Judges s.settings satPaths .sat satOutcomes ∧
      fs.Judges s.settings unsatPaths .unsat unsatOutcomes := by
  obtain ⟨stats, happend⟩ := s.exists_checkCases_append fs times 0
    (satPaths.map (⟨·, .sat⟩)) (unsatPaths.map (⟨·, .unsat⟩))
  exact ⟨_, _, happend, Solver.judges_checkCases hs fs times _ satPaths .sat,
    Solver.judges_checkCases (s := { s with stats }) hs fs times _ unsatPaths .unsat⟩

/-- The report of a clause-learning solver has one outcome for each file that is collected below the
directory of satisfiable instances, in order, and then one for each file below that of unsatisfiable
ones. Each of them is what a fresh engine says of the file alone. The counts add up, and a call that
asks for the report succeeds exactly if every outcome has passed, and if it can be written where it is
asked for as JSON. Where the calls of the system succeed for the two directories there is a report,
and its outcomes are those of all files below them, in the order of their paths. -/
theorem grade_judges (hs : s.algorithm = .cdcl) (fs : FileSystem) (times : Nat → Duration)
    (sat unsat : Path) :
    (∀ r, grade s fs times sat unsat = .ok r →
      (∃ satFound unsatFound satOutcomes unsatOutcomes,
        fs.collectFiles sat = .ok satFound ∧ fs.collectFiles unsat = .ok unsatFound ∧
        r.outcomes = satOutcomes ++ unsatOutcomes ∧
        fs.Judges s.settings satFound.paths .sat satOutcomes ∧
        fs.Judges s.settings unsatFound.paths .unsat unsatOutcomes) ∧
      r.passed + r.failed = r.outcomes.length ∧
      ∀ q : Request, q.command = .grade sat unsat → q.solver = s →
        ((q.answer fs times).code = 0 ↔ (∀ x ∈ r.outcomes, x.passed = true) ∧
          (q.json = true → ∀ x ∈ r.outcomes, x.path.text?.isSome = true))) ∧
    ∀ d d', fs.Presents sat d → fs.Presents unsat d' →
      ∃ r satOutcomes unsatOutcomes, grade s fs times sat unsat = .ok r ∧
        r.outcomes = satOutcomes ++ unsatOutcomes ∧
        d.Judged s.settings sat .sat satOutcomes ∧ d'.Judged s.settings unsat .unsat unsatOutcomes := by
  refine ⟨fun r hr => ?_, fun d d' hd hd' => ?_⟩
  · obtain ⟨satFound, unsatFound, hsat, hunsat, rfl⟩ := grade_eq_ok_iff.mp hr
    obtain ⟨satOutcomes, unsatOutcomes, houtcomes, hjudges⟩ :=
      exists_judges hs fs times satFound.paths unsatFound.paths
    exact ⟨⟨satFound, unsatFound, satOutcomes, unsatOutcomes, hsat, hunsat, houtcomes, hjudges⟩,
      Report.ofOutcomes_counts _ _,
      fun q hcommand hsolver => code_answer_grade q hcommand hsolver hr⟩
  · obtain ⟨satFound, hsat, hsatJudged⟩ := hd.exists_found
    obtain ⟨unsatFound, hunsat, hunsatJudged⟩ := hd'.exists_found
    obtain ⟨satOutcomes, unsatOutcomes, houtcomes, hjudges, hjudges'⟩ :=
      exists_judges hs fs times satFound.paths unsatFound.paths
    exact ⟨_, satOutcomes, unsatOutcomes,
      grade_eq_ok_iff.mpr ⟨satFound, unsatFound, hsat, hunsat, rfl⟩, houtcomes,
      hsatJudged _ _ _ hjudges, hunsatJudged _ _ _ hjudges'⟩

/-- A satisfiable instance in one directory and a text that is none in another. -/
def twoInstances : FileSystem :=
  (systemOf (.withFolder "sat" (.withFile "a" "1 0" .empty)
    (.withFolder "unsat" (.withFile "b" "x" .empty) .empty))).answers

private theorem presents_sat : twoInstances.Presents (.ofText "sat") (.withFile "a" "1 0" .empty) :=
  .shown ⟨by constructor <;> decide, rfl, trivial⟩
    { kind_eq := by decide
      entries_eq := by decide
      below := ⟨by decide, by decide, trivial⟩ }

private theorem presents_unsat : twoInstances.Presents (.ofText "unsat") (.withFile "b" "x" .empty) :=
  .shown ⟨by constructor <;> decide, rfl, trivial⟩
    { kind_eq := by decide
      entries_eq := by decide
      below := ⟨by decide, by decide, trivial⟩ }

private theorem encodes_unit : ∃ d, Dimacs.Encodes (.ok "1 0".toUTF8) d ∧ d.Satisfiable := by
  have hformula : (Dimacs.parse "1 0").map (·.formula) = .ok (.var 1) := by decide +kernel
  cases hd : Dimacs.parse "1 0" with
  | error e =>
    rw [hd] at hformula
    cases hformula
  | ok d =>
    rw [hd] at hformula
    refine ⟨d, ⟨_, _, rfl, by decide, hd⟩, fun _ => true, ?_⟩
    rw [show d.formula = .var 1 from Except.ok.inj hformula]
    rfl

private theorem not_encodes_word : ¬∃ d, Dimacs.Encodes (.ok "x".toUTF8) d := by
  rintro ⟨d, bytes, text, hbytes, htext, hd⟩
  obtain rfl := Except.ok.inj hbytes
  have htext' : String.fromUTF8? "x".toUTF8 = some "x" := by decide
  have hparse : (Dimacs.parse "x").isOk = false := by decide
  rw [Option.some.inj (htext'.symm.trans htext), hd] at hparse
  cases hparse

/-- The instance passes, the other file does not, and so the call fails. -/
theorem twoInstances_judged :
    twoInstances.Presents (.ofText "sat") (.withFile "a" "1 0" .empty) ∧
    twoInstances.Presents (.ofText "unsat") (.withFile "b" "x" .empty) ∧
    (∃ r, grade ⟨.cdcl, {}, none⟩ twoInstances (fun _ => .zero) (.ofText "sat") (.ofText "unsat") =
        .ok r ∧
      (∃ o ∈ r.outcomes, o.path = .ofText "sat/a" ∧ o.passed = true) ∧
      ∃ o ∈ r.outcomes, o.path = .ofText "unsat/b" ∧ o.passed = false) ∧
    (Request.answer twoInstances (fun _ => .zero)
      { command := .grade (.ofText "sat") (.ofText "unsat") }).code ≠ 0 := by
  obtain ⟨hreports, hpresented⟩ := grade_judges (s := ⟨.cdcl, {}, none⟩) rfl twoInstances
    (fun _ => .zero) (.ofText "sat") (.ofText "unsat")
  obtain ⟨r, _, _, hr, houtcomes, hsatJudged, hunsatJudged⟩ :=
    hpresented _ _ presents_sat presents_unsat
  obtain ⟨-, -, hcode⟩ := hreports r hr
  obtain ⟨o, ho, hjudges⟩ := hsatJudged.exists_outcome Directory.hasFile_withFile
  obtain ⟨o', ho', hjudges'⟩ := hunsatJudged.exists_outcome Directory.hasFile_withFile
  have hpassed : o.passed = true := by
    obtain ⟨d, hd, hsatisfiable⟩ := encodes_unit
    exact hjudges.passed_iff.mpr ⟨d, hd, by simp [hsatisfiable]⟩
  have hfailed : o'.passed = false := by
    rw [← Bool.not_eq_true, hjudges'.passed_iff]
    rintro ⟨d, hd, -⟩
    exact not_encodes_word ⟨d, hd⟩
  have hmem : o ∈ r.outcomes := houtcomes ▸ List.mem_append_left _ ho
  have hmem' : o' ∈ r.outcomes := houtcomes ▸ List.mem_append_right _ ho'
  refine ⟨presents_sat, presents_unsat, ⟨r, hr,
    ⟨o, hmem, hjudges.path_eq.trans (by decide), hpassed⟩,
    ⟨o', hmem', hjudges'.path_eq.trans (by decide), hfailed⟩⟩, fun hzero => ?_⟩
  have hall := ((hcode _ rfl rfl).mp hzero).1 o' hmem'
  rw [hfailed] at hall
  cases hall

theorem grade_detour {n : Nat} (hn : 2 * n + 1 ≤ 4095) (hlong : 4095 < 2 * n + 32) :
    (∃ r, grade ⟨.cdcl, {}, none⟩ longNamed.answers (fun _ => .zero) (detour n) (.ofText "u") =
      .ok r ∧ r.outcomes = []) ∧
    (Request.answer longNamed.answers (fun _ => .zero)
      { command := .grade (detour n) (.ofText "u") }).code = 0 := by
  have hnone : longNamed.answers.kind? (.ofText "u") = none := by decide
  have hr : grade ⟨.cdcl, {}, none⟩ longNamed.answers (fun _ => .zero) (detour n) (.ofText "u") =
      .ok _ := grade_eq_ok_iff.mpr ⟨_, _, collectFiles_detour hn hlong,
    FileSystem.collectFiles_of_none hnone, rfl⟩
  refine ⟨⟨_, hr, rfl⟩, ?_⟩
  rw [code_answer_grade { command := .grade (detour n) (.ofText "u") } rfl rfl hr]
  exact ⟨fun o ho => absurd ho List.not_mem_nil, fun _ o ho => absurd ho List.not_mem_nil⟩

/-- A file below the directory has no outcome, because its path is too long, and the call succeeds. -/
theorem longNamed_passed_over : longNamed.root.Valid ∧
    longNamed.HasFileBelow (detour 2040) [(Path.ofText longName).bytes] (.ok "1 0".toUTF8) ∧
    (∃ r, grade ⟨.cdcl, {}, none⟩ longNamed.answers (fun _ => .zero) (detour 2040) (.ofText "u") =
      .ok r ∧ r.outcomes = []) ∧
    (Request.answer longNamed.answers (fun _ => .zero)
      { command := .grade (detour 2040) (.ofText "u") }).code = 0 := by
  have hfits : 2 * 2040 + 1 ≤ 4095 := by decide
  exact ⟨longNamed_valid, hasFileBelow_detour hfits, grade_detour hfits (by decide)⟩

end Reports

end ClauseLearning
