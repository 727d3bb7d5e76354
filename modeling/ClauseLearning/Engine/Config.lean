/-!
# Configuration and counters of the engine

* `Choice`: alternatives that a user names.
* `Config`, `Stats`: the settings of an engine, and what it counts.
-/

namespace ClauseLearning

/-! ## Choices by name -/

/-- A type with finitely many named values. -/
class Choice (α : Type) where
  /-- Every value, in the order they are offered. -/
  all : List α
  name : α → String

/-! ## Settings -/

/-- How unit propagation finds unit and falsified clauses. -/
inductive Propagation where
  /-- Only clauses that watch a falsified literal are visited. -/
  | watchedLiterals
  /-- Every clause is evaluated again until nothing changes. -/
  | fullScan
deriving DecidableEq

/-- Which implied literal of the conflict level is resolved next. -/
inductive ResolutionOrder where
  /-- The literal assigned last. -/
  | reverseTrail
  | smallestVariable
  | largestVariable
deriving DecidableEq

/-- The sign of the decisions on the smallest unassigned variable. -/
inductive Phase where
  | positive
  /-- Positive and negative in turns. -/
  | alternating
deriving DecidableEq

instance : Choice Propagation where
  all := [.watchedLiterals, .fullScan]
  name
    | .watchedLiterals => "watched-literals"
    | .fullScan => "full-scan"

instance : Choice ResolutionOrder where
  all := [.reverseTrail, .smallestVariable, .largestVariable]
  name
    | .reverseTrail => "reverse-trail"
    | .smallestVariable => "smallest-variable"
    | .largestVariable => "largest-variable"

instance : Choice Phase where
  all := [.positive, .alternating]
  name
    | .positive => "positive"
    | .alternating => "alternating"

/-- The settings of an engine. -/
structure Config where
  propagation : Propagation := .watchedLiterals
  resolution : ResolutionOrder := .reverseTrail
  phase : Phase := .positive
deriving DecidableEq

instance : Inhabited Config := ⟨{}⟩

/-- What one run of the engine has done so far. -/
structure Stats where
  decisions : Nat := 0
  conflicts : Nat := 0
  propagations : Nat := 0
  learned : Nat := 0
deriving DecidableEq

end ClauseLearning
