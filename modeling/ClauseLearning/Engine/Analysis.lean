import ClauseLearning.Engine.Config
import ClauseLearning.Engine.Trail

/-!
# Conflict analysis

From a falsified clause, resolution with the reasons of its literals leads to another falsified
clause, with one literal of the current level. This clause is learned; the second highest of its
levels is the one to return to.

* `Analysis.step`: one resolution.
* `analyze`: resolves until one literal of the level is left.
-/

namespace ClauseLearning

/-- How the resolution of a conflict ended. -/
inductive Analysis.Exit where
  /-- At most one literal of the level is left. -/
  | finished
  /-- Several literals of the level are left, and none of them is implied. -/
  | noImpliedLiteral
  /-- The bound on the resolutions is used up. -/
  | unfinished
deriving DecidableEq

/-- What is learned from a conflict. -/
structure Analysis where
  learned : Clause
  /-- The level to return to. -/
  backjump : Nat
  exit : Analysis.Exit
deriving DecidableEq

namespace Analysis

/-- The literals of the clause that are assigned at the current level. -/
def atLevel (t : Trail) (c : Clause) : List Literal :=
  c.literals.toList.filter fun l => t.levelOf l.var == some t.level

/-- The literals of the current level that a clause forced, with that clause. -/
def candidates (t : Trail) (c : Clause) : List (Literal × ClauseRef) :=
  (atLevel t c).filterMap fun l =>
    match t.reason l.var with
    | some (.clause r) => some (l, r)
    | _ => none

/-- The literal to resolve next, and its reason. -/
def pivot (t : Trail) (order : ResolutionOrder) (c : Clause) : Option (Literal × ClauseRef) :=
  match order with
  | .reverseTrail => (candidates t c).maxOn? fun (l, _) => (t.position l.var).getD 0
  | .smallestVariable => (candidates t c).minOn? fun (l, _) => l.var.id
  | .largestVariable => (candidates t c).maxOn? fun (l, _) => l.var.id

/-- What is to be done with a falsified clause. -/
inductive Next where
  | exit (e : Exit)
  | resolved (c : Clause)

/-- Replaces one implied literal of the level by the other literals of its reason, while there are
several literals of the level. -/
def step (store : ClauseStore) (t : Trail) (order : ResolutionOrder) (c : Clause) :
    Except Fault Next :=
  if (atLevel t c).length ≤ 1 then .ok (.exit .finished)
  else match pivot t order c with
    | none => .ok (.exit .noImpliedLiteral)
    | some (l, r) => do
      let reason ← store.fetch r
      return .resolved (Clause.resolve l.var c reason)

/-- Resolves a falsified clause, at most `steps` times. -/
def resolveConflict (store : ClauseStore) (t : Trail) (order : ResolutionOrder) :
    Nat → Clause → Except Fault (Exit × Clause)
  | 0, c => .ok (.unfinished, c)
  | steps + 1, c => do
    match ← step store t order c with
    | .exit e => return (e, c)
    | .resolved d => resolveConflict store t order steps d

/-- The second highest level among the variables of the clause, or the root level. -/
def backjumpLevel (t : Trail) (c : Clause) : Nat :=
  let levels := c.literals.toList.filterMap fun l => t.levelOf l.var
  let highest := levels.max?.getD 0
  (levels.filter (· < highest)).max?.getD 0

/-- A bound on the resolutions of one conflict: a literal is only replaced by literals assigned
before it, so the sets of positions grow smaller as binary numbers. -/
def stepBound (t : Trail) : Nat := Nat.pow 2 t.size + 1

end Analysis

/-- Learns a clause from a falsified one. -/
def analyze (store : ClauseStore) (t : Trail) (order : ResolutionOrder) (conflict : Clause) :
    Except Fault Analysis := do
  let (exit, learned) ←
    Analysis.resolveConflict store t order (Analysis.stepBound t) conflict
  return { learned, exit, backjump := Analysis.backjumpLevel t learned }

end ClauseLearning
