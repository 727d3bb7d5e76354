import ClauseLearning.Engine.Trail

/-!
# Watches

Every clause watches two of its positions, a clause of one literal the same one twice. The clauses
watching a literal are listed under its code, so a falsified literal leads to the clauses that may
have become unit.

* `Watcher.attach`: starts to watch a clause; it is evaluated in full at the next propagation.
* `Watcher.backtrack`: forgets the propagation of assignments that were undone.
-/

namespace ClauseLearning

/-- Two watched positions of a clause. -/
structure Watch where
  first : Nat
  second : Nat
deriving DecidableEq

/-- The watches of all clauses of a store, and what is still to be propagated. -/
structure Watcher where
  /-- For each literal code, the clauses that watch the literal. -/
  lists : Array (Array ClauseRef)
  /-- For each clause, its watched positions. -/
  watches : Array Watch
  /-- The position in the trail of the next assignment to propagate. -/
  head : Nat
  /-- Clauses to be evaluated in full. -/
  pending : Array ClauseRef
deriving DecidableEq

/-- The literal at a position of the clause. -/
def Clause.fetch (c : Clause) (k : Nat) : Except Fault Literal :=
  match c.literals[k]? with
  | some l => .ok l
  | none => .error (.noLiteral k)

namespace Watch

/-- Literals that are not false come first, then those falsified at the highest levels. -/
def rank (t : Trail) (c : Clause) (k : Nat) : Nat :=
  match c.literals[k]? with
  | some l => if t.value l = some false then (t.levelOf l.var).getD 0 else t.level + 1
  | none => 0

/-- The two positions of highest rank, of equal ranks the earlier ones. -/
def choose (t : Trail) (c : Clause) : Watch :=
  let positions := List.range c.size
  match positions.maxOn? (rank t c) with
  | none => ⟨0, 0⟩
  | some first =>
    match (positions.filter (· ≠ first)).maxOn? (rank t c) with
    | none => ⟨first, first⟩
    | some second => ⟨first, second⟩

end Watch

namespace Watcher

/-- No clauses, over as many variables as the trail has. -/
def empty (t : Trail) : Watcher := ⟨Array.replicate (2 * t.numVariables) #[], #[], 0, #[]⟩

/-- The watched positions of a clause. -/
def fetch (w : Watcher) (r : ClauseRef) : Except Fault Watch :=
  match w.watches[r.index]? with
  | some x => .ok x
  | none => .error (.unwatchedClause r.index)

/-- Lists the clause under the literal. A literal over another variable is never falsified and has no
list. -/
def watch (w : Watcher) (t : Trail) (l : Literal) (r : ClauseRef) : Except Fault Watcher :=
  match t.code l with
  | none => .ok w
  | some code =>
    if code < w.lists.size then .ok { w with lists := w.lists.modify code (·.push r) }
    else .error (.noWatchList code)

/-- Gives a clause other watched positions, and lists it under a literal. -/
def rewatch (w : Watcher) (t : Trail) (r : ClauseRef) (x : Watch) (l : Literal) :
    Except Fault Watcher :=
  { w with watches := w.watches.setIfInBounds r.index x }.watch t l r

/-- Replaces the list under a code. -/
def setList (w : Watcher) (code : Nat) (refs : List ClauseRef) : Watcher :=
  { w with lists := w.lists.setIfInBounds code refs.toArray }

/-- Starts to watch the next clause of the store. -/
def attach (w : Watcher) (r : ClauseRef) (c : Clause) (t : Trail) : Except Fault Watcher :=
  if r.index ≠ w.watches.size then .error (.attachedOutOfTurn r.index)
  else do
    let chosen := Watch.choose t c
    let w := { w with watches := w.watches.push chosen }
    let w ← match c.literals[chosen.first]? with
      | some l => w.watch t l r
      | none => pure w
    let w ←
      if chosen.second ≠ chosen.first then do w.watch t (← c.fetch chosen.second) r else pure w
    return { w with pending := w.pending.push r }

/-- Watches every clause of the store, for a trail with nothing assigned. -/
def ofStore (store : ClauseStore) (t : Trail) : Except Fault Watcher :=
  if t.size ≠ 0 then .error .trailNotEmpty
  else store.entries.foldlM (fun w (r, c) => w.attach r c t) (empty t)

/-- Forgets the propagation of assignments that are no longer on the trail. -/
def backtrack (w : Watcher) (t : Trail) : Watcher := { w with head := min w.head t.size }

end Watcher

end ClauseLearning
