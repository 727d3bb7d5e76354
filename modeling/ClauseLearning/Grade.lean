import ClauseLearning.Dimacs
import ClauseLearning.Files.Collect
import ClauseLearning.Json
import ClauseLearning.Solver

/-!
# Grading a solver

A solver is graded on two directories of instances, one satisfiable and one unsatisfiable. Each file
is read and decided, and its outcome is compared with its label.

* `Solver.checkFile`: decides one file.
* `grade`: the report on two directories.
-/

namespace ClauseLearning

/-- What is known of an instance. -/
inductive Expected where
  | sat
  | unsat
deriving DecidableEq

namespace Expected

/-- The name of the verdict. -/
def label : Expected → String
  | sat => "SAT"
  | unsat => "UNSAT"

/-- The name in a report. -/
def name : Expected → String
  | sat => "Sat"
  | unsat => "UnSat"

end Expected

/-- A span of time. -/
structure Duration where
  nanoseconds : Nat
deriving DecidableEq

namespace Duration

/-- No time. -/
def zero : Duration := ⟨0⟩

instance : Add Duration := ⟨fun a b => ⟨a.nanoseconds + b.nanoseconds⟩⟩

/-- Whole seconds and the nanoseconds beyond them. -/
def toJson (d : Duration) : JsonValue :=
  .object [("secs", .number (d.nanoseconds / 1000000000)),
    ("nanos", .number (d.nanoseconds % 1000000000))]

/-- The time in units of that many powers of ten of nanoseconds, without zeros at the end. -/
def inUnits (d : Duration) (digits : Nat) (unit : String) : String :=
  let beyond := toString (d.nanoseconds % Nat.pow 10 digits)
  let padded := List.replicate (digits - beyond.length) '0' ++ beyond.toList
  let shown := (padded.reverse.dropWhile (· == '0')).reverse
  toString (d.nanoseconds / Nat.pow 10 digits) ++
    (if shown.isEmpty then "" else "." ++ String.ofList shown) ++ unit

/-- The time in the greatest unit that it reaches. -/
def text (d : Duration) : String :=
  if 1000000000 ≤ d.nanoseconds then d.inUnits 9 "s"
  else if 1000000 ≤ d.nanoseconds then d.inUnits 6 "ms"
  else if 1000 ≤ d.nanoseconds then d.inUnits 3 "µs"
  else d.inUnits 0 "ns"

end Duration

/-- Why a file is not decided. -/
inductive CheckError where
  | read (e : ReadFailure)
  | dimacs (e : Dimacs.Error)
  | normalForm (e : NormalFormError)
  | solver (e : SolverError)
deriving DecidableEq

/-- The messages of an error, each explained by the next. -/
def CheckError.chain : CheckError → List String
  | read e => e.chain
  | dimacs e => e.chain
  | normalForm e => [e.message]
  | solver e => [e.message]

/-- The formula of a file. -/
def FileSystem.readFormula (fs : FileSystem) (path : Path) : Except CheckError Formula := do
  let text ← (fs.readText path).mapError .read
  let document ← (Dimacs.parse text).mapError .dimacs
  (flatten document.formula).mapError .normalForm

/-- Whether the formula of a file is satisfiable. -/
def Solver.checkFile (s : Solver) (fs : FileSystem) (path : Path) :
    Except CheckError Bool × Solver :=
  match fs.readFormula path with
  | .error e => (.error e, s)
  | .ok f =>
    let (result, s) := s.solve f
    (result.mapError .solver, s)

/-! ## Members of a report -/

/-- The settings by name. -/
def Config.toJson (c : Config) : JsonValue :=
  .object [("propagation", .string (Choice.name c.propagation)),
    ("resolution", .string (Choice.name c.resolution)), ("phase", .string (Choice.name c.phase))]

/-- The counters by name. -/
def Stats.toJson (s : Stats) : JsonValue :=
  .object [("decisions", .number s.decisions), ("conflicts", .number s.conflicts),
    ("propagations", .number s.propagations), ("learned", .number s.learned)]

/-! ## Outcomes -/

/-- An instance to be decided. -/
structure Case where
  path : Path
  expected : Expected
deriving DecidableEq

/-- How an instance was decided. -/
structure Outcome where
  path : Path
  expected : Expected
  passed : Bool
  elapsed : Duration
  /-- What went wrong, if the instance was not decided. -/
  error : Option String
  /-- The counters of the solver, if it keeps any and the instance was decided. -/
  stats : Option Stats
deriving DecidableEq

namespace Outcome

/-- The outcome of a case, from the result and the solver after it. -/
def ofResult (c : Case) (s : Solver) (elapsed : Duration) : Except CheckError Bool → Outcome
  | .ok sat =>
    { path := c.path, expected := c.expected, elapsed
      passed := sat == (c.expected == .sat), error := none, stats := s.stats }
  | .error e =>
    { path := c.path, expected := c.expected, elapsed
      passed := false, error := some (": ".intercalate e.chain), stats := none }

/-- The outcome as an object, if its path is a text. -/
def toJson? (o : Outcome) : Option JsonValue := do
  let path ← o.path.text?
  return .object [("path", .string path), ("expected", .string o.expected.name),
    ("passed", .bool o.passed), ("elapsed", o.elapsed.toJson),
    ("error", .ofOption .string o.error), ("stats", .ofOption Stats.toJson o.stats)]

end Outcome

/-- Decides the cases in order with one solver. The first of them has this number, and `times` tells
how long each takes. -/
def Solver.checkCases (fs : FileSystem) (times : Nat → Duration) :
    Nat → Solver → List Case → List Outcome
  | _, _, [] => []
  | number, s, c :: cases =>
    let (result, s) := s.checkFile fs c.path
    .ofResult c s (times number) result :: checkCases fs times (number + 1) s cases

/-! ## Reports -/

/-- The outcomes of all instances. -/
structure Report where
  solver : String
  config : Option Config
  passed : Nat
  failed : Nat
  total : Duration
  outcomes : List Outcome
deriving DecidableEq

namespace Report

/-- The report of a solver on outcomes. -/
def ofOutcomes (s : Solver) (outcomes : List Outcome) : Report :=
  let passed := outcomes.countP Outcome.passed
  { solver := s.name, config := s.config, passed, failed := outcomes.length - passed, outcomes
    total := outcomes.foldl (fun total o => total + o.elapsed) .zero }

/-- No outcome has failed. -/
def allPassed (r : Report) : Bool := r.failed == 0

/-- The report as an object, if all its paths are texts. -/
def toJson? (r : Report) : Option JsonValue := do
  let outcomes ← r.outcomes.mapM Outcome.toJson?
  return .object [("solver", .string r.solver), ("config", .ofOption Config.toJson r.config),
    ("passed", .number r.passed), ("failed", .number r.failed), ("total", r.total.toJson),
    ("outcomes", .array outcomes)]

end Report

/-- The files of two directories, with their labels. -/
def casesOf (fs : FileSystem) (sat unsat : Path) : Except ReadFailure (List Case) := do
  let satFiles ← fs.collectFiles sat
  let unsatFiles ← fs.collectFiles unsat
  return satFiles.paths.map (⟨·, .sat⟩) ++ unsatFiles.paths.map (⟨·, .unsat⟩)

/-- Grades a solver on a directory of satisfiable and one of unsatisfiable instances. -/
def grade (s : Solver) (fs : FileSystem) (times : Nat → Duration) (sat unsat : Path) :
    Except ReadFailure Report := do
  let cases ← casesOf fs sat unsat
  return .ofOutcomes s (s.checkCases fs times 0 cases)

end ClauseLearning
