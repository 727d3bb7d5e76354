import ClauseLearning.Engine.Basic
import ClauseLearning.Logic.NormalForm
import ClauseLearning.Search.Exhaustive

/-!
# Solvers

A solver decides one formula after the other and remembers the counters of the last one. Each formula
gets a fresh engine.
-/

namespace ClauseLearning

/-- How a solver decides a formula. -/
inductive Algorithm where
  /-- Conflict-driven clause learning. -/
  | cdcl
  /-- Exhaustive search. -/
  | bruteForce
deriving DecidableEq

instance : Choice Algorithm where
  all := [.cdcl, .bruteForce]
  name
    | .cdcl => "cdcl"
    | .bruteForce => "brute-force"

/-- Why a solver gives no answer. -/
inductive SolverError where
  | search (e : Exhaustive.Error)
  | fault (f : Fault)
  | unfinished
deriving DecidableEq

/-- What is reported where there is no answer. -/
def SolverError.message : SolverError → String
  | .search e => e.message
  | .fault f => f.message
  | .unfinished => "the bound on the transitions is used up"

/-- A solver and the counters of the last formula that it decided with an engine. -/
structure Solver where
  algorithm : Algorithm
  settings : Config
  stats : Option Stats := none

namespace Solver

/-- The name of the algorithm. -/
def name (s : Solver) : String := Choice.name s.algorithm

/-- The settings that matter to the solver. -/
def config (s : Solver) : Option Config :=
  match s.algorithm with
  | .cdcl => some s.settings
  | .bruteForce => none

/-- Whether the formula is satisfiable. -/
def solve (s : Solver) (f : Formula) : Except SolverError Bool × Solver :=
  match s.algorithm with
  | .bruteForce =>
    match exhaustive f with
    | .ok (sat, _) => (.ok sat, s)
    | .error e => (.error (.search e), s)
  | .cdcl =>
    match (Engine.ofFormula f s.settings).solve with
    | (.sat, e) => (.ok true, { s with stats := some e.stats })
    | (.unsat, e) => (.ok false, { s with stats := some e.stats })
    | (.faulted x, _) => (.error (.fault x), s)
    | (.unfinished, _) => (.error .unfinished, s)

end Solver

/-- Whether a tree in conjunctive normal form is satisfiable, by an engine with the default
settings. -/
def checkSat {ν : Type} [CnfNode ν] (root : ν) : Except NormalFormError Bool := do
  let f ← flatten root
  return (Engine.ofFormula f default).solve.1 == .sat

end ClauseLearning
