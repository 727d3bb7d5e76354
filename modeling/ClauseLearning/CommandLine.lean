import ClauseLearning.Grade

/-!
# Running a command

The result of a command is what it writes and its exit code.

* `Request`: a command with its options.
* `Request.answer`: the output for a request.
-/

namespace ClauseLearning

/-- What to do with files. -/
inductive Command where
  | solve (path : Path)
  | grade (sat unsat : Path)
deriving DecidableEq

/-- A command and its options. -/
structure Request where
  command : Command
  algorithm : Algorithm := .cdcl
  settings : Config := {}
  /-- The result is wanted as JSON. -/
  json : Bool := false
deriving DecidableEq

/-- The solver that is asked for. -/
def Request.solver (q : Request) : Solver where
  algorithm := q.algorithm
  settings := q.settings

/-- What a program writes, and its exit code. -/
structure Output where
  code : Nat
  stdout : String
  stderr : String
deriving DecidableEq

namespace Output

/-- A failure with its causes: a single one below its head, several with their numbers. -/
def failureText (chain : List String) : String :=
  let head := "Error: " ++ chain.headD "" ++ "\n"
  match chain.tail with
  | [] => head
  | [cause] => head ++ "\nCaused by:\n    " ++ cause ++ "\n"
  | causes =>
    head ++ "\nCaused by:\n" ++ String.join (causes.zipIdx.map fun (cause, i) =>
      "    " ++ toString i ++ ": " ++ cause ++ "\n")

end Output

/-! ## Solving one file -/

/-- The verdict with its circumstances, members in alphabetical order; the path has to be a text. -/
def verdictJson? (s : Solver) (path : Path) (verdict : String) : Option JsonValue := do
  let config (c : Config) : JsonValue :=
    .object [("phase", .string (Choice.name c.phase)),
      ("propagation", .string (Choice.name c.propagation)),
      ("resolution", .string (Choice.name c.resolution))]
  let stats (x : Stats) : JsonValue :=
    .object [("conflicts", .number x.conflicts), ("decisions", .number x.decisions),
      ("learned", .number x.learned), ("propagations", .number x.propagations)]
  let path ← path.text?
  return .object [("config", .ofOption config s.config), ("path", .string path),
    ("solver", .string s.name), ("stats", .ofOption stats s.stats), ("verdict", .string verdict)]

/-- What is reported for a path that is no text, where JSON is asked for. -/
def pathNotText : String := "path contains invalid UTF-8 characters"

/-- Decides a file and writes the verdict. A path that is no text breaks the program off where the
verdict is asked for as JSON. -/
def solveOutput (s : Solver) (fs : FileSystem) (path : Path) (json : Bool) : Output :=
  match s.checkFile fs path with
  | (.error e, _) => ⟨1, "", Output.failureText e.chain⟩
  | (.ok sat, s) =>
    let verdict := if sat then "SAT" else "UNSAT"
    if json then
      match verdictJson? s path verdict with
      | some j => ⟨0, j.compact ++ "\n", ""⟩
      | none => ⟨101, "", pathNotText ++ "\n"⟩
    else ⟨0, verdict ++ "\n", ""⟩

/-! ## Grading -/

/-- A line with its head set to the right in twelve columns. -/
def headedLine (head text : String) : String :=
  String.ofList (List.replicate (12 - head.length) ' ') ++ head ++ " " ++ text ++ "\n"

/-- The line before the first case. -/
def foundLine (numCases : Nat) : String := headedLine "Found" (toString numCases ++ " instances")

/-- The line before the case of a number. -/
def solvingLine (number numCases : Nat) (c : Case) : String :=
  headedLine "Solving" ("(" ++ toString number ++ "/" ++ toString numCases ++ ") " ++ c.path.display)

/-- The line behind a case. -/
def outcomeLine (o : Outcome) : String :=
  match o.passed, o.error with
  | true, _ =>
    headedLine o.expected.label (o.path.display ++ " (in " ++ o.elapsed.text ++ ")")
  | false, some e => headedLine "Error" (o.path.display ++ " " ++ e)
  | false, none =>
    headedLine "Wrong" (o.path.display ++ " expected " ++ o.expected.label ++ " (in " ++
      o.elapsed.text ++ ")")

/-- The lines behind the last case: the counts, the time for one case, and the cases that failed. -/
def summaryLines (r : Report) : String :=
  let numCases := r.passed + r.failed
  let average :=
    if numCases = 0 then ""
    else
      let time : Duration := ⟨r.total.nanoseconds / numCases⟩
      headedLine "Average" (time.text ++ " per instance")
  let failed := (r.outcomes.filter fun o => !o.passed).map fun o =>
    headedLine "Failed" (o.path.display ++ " (expected " ++ o.expected.label ++ ")")
  headedLine "Summary" (toString r.passed ++ " passed, " ++ toString r.failed ++ " failed in " ++
    r.total.text) ++ average ++ String.join failed

/-- The lines of all cases. -/
def progressLines (r : Report) : String :=
  let numCases := r.outcomes.length
  foundLine numCases ++ String.join (r.outcomes.zipIdx.map fun (o, i) =>
    solvingLine (i + 1) numCases ⟨o.path, o.expected⟩ ++ outcomeLine o)

/-- What is written behind the summary: a failure unless every case passed. -/
def verdictOutput (r : Report) (stdout : String) : Output :=
  if r.allPassed then ⟨0, stdout, ""⟩
  else
    ⟨1, stdout, Output.failureText
      [toString r.failed ++ " of " ++ toString r.outcomes.length ++ " instances failed"]⟩

/-- What is written behind the summary if the report is asked for as JSON or is not. A path that is no
text is a failure then, whether or not the cases passed. -/
def reportOutput (r : Report) (json : Bool) : Output :=
  if json then
    match r.toJson? with
    | some j => verdictOutput r (j.pretty ++ "\n")
    | none => ⟨1, "", Output.failureText [pathNotText]⟩
  else verdictOutput r ""

/-- Grades a solver and writes how it went. -/
def gradeOutput (s : Solver) (fs : FileSystem) (times : Nat → Duration) (sat unsat : Path)
    (json : Bool) : Output :=
  match grade s fs times sat unsat with
  | .error e => ⟨1, "", Output.failureText e.chain⟩
  | .ok r =>
    let last := reportOutput r json
    { last with stderr := progressLines r ++ summaryLines r ++ last.stderr }

/-! ## Requests -/

/-- The output for a request, where `times` tells how long the cases take. -/
def Request.answer (fs : FileSystem) (times : Nat → Duration) (q : Request) : Output :=
  match q.command with
  | .solve path => solveOutput q.solver fs path q.json
  | .grade sat unsat => gradeOutput q.solver fs times sat unsat q.json

end ClauseLearning
