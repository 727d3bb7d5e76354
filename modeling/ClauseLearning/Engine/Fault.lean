import ClauseLearning.Logic.Literal

/-!
# Faults of the engine

A fault is a violated precondition: the engine stops at it and gives no verdict. Only the first three
can come from the outside: from the variables of a trail and from the literals of a policy.

The engine is that of a build with debug assertions. `unorderedVariables`, `alreadyAssigned`,
`attachedOutOfTurn` and `trailNotEmpty` are such assertions, and another build goes on where they fail.
-/

namespace ClauseLearning

/-- A violated precondition of a trail, a store or a watcher. -/
inductive Fault where
  /-- The variables of a trail have to be strictly ascending. -/
  | unorderedVariables
  /-- Only a variable of the trail can be assigned. -/
  | notVariable (v : Var)
  /-- A variable is assigned once. -/
  | alreadyAssigned (v : Var)
  /-- The store has no clause of this index. -/
  | unknownClause (index : Nat)
  /-- The clause of this index has no watches. -/
  | unwatchedClause (index : Nat)
  /-- The clause has no literal at this position. -/
  | noLiteral (position : Nat)
  /-- There is no watch list for a literal of this code. -/
  | noWatchList (code : Nat)
  /-- Clauses are attached in the order of the store. -/
  | attachedOutOfTurn (index : Nat)
  /-- A watcher starts on an empty trail. -/
  | trailNotEmpty
deriving DecidableEq

/-- What is reported for the fault. -/
def Fault.message : Fault → String
  | .unorderedVariables => "Variables must be strictly ascending"
  | .notVariable v => v.text ++ " is not a variable of the formula"
  | .alreadyAssigned v => v.text ++ " is already assigned"
  | .unknownClause i => "no clause has index " ++ toString i
  | .unwatchedClause i => "the clause of index " ++ toString i ++ " has no watches"
  | .noLiteral k => "the clause has no literal at position " ++ toString k
  | .noWatchList n => "no watch list has code " ++ toString n
  | .attachedOutOfTurn i => "the clause of index " ++ toString i ++ " is attached out of turn"
  | .trailNotEmpty => "the trail is not empty"

end ClauseLearning
