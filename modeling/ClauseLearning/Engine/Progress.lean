import ClauseLearning.Engine.Watcher

/-!
# The state of a propagation

Propagation changes the trail, the watches and the log. A change takes the state apart before it
changes a part, so that the arrays of the part are changed in place.

* `Event`: what is logged.
* `Progress.imply`: assigns a literal that a clause forces.
* `Progress.rewatch`, `Progress.setList`: change the watches.
* `Progress.scan`: propagation that evaluates every clause, in the order of the store, again and again
  until a pass assigns nothing.
-/

namespace ClauseLearning

/-! ## Events -/

/-- Something that happened while the engine was running. -/
inductive Event where
  /-- A clause forced a literal. -/
  | implied (l : Literal) (reason : Clause)
  /-- A decision opened a level. -/
  | decision (l : Literal) (level : Nat)
  /-- A clause was learned from a conflict. -/
  | conflict (clause : Clause) (level : Nat) (learned : Clause) (backjump : Nat)
  /-- A conflict that depends on no decision. -/
  | rootConflict (clause : Clause)
  /-- A conflict could not be resolved to one literal of its level. -/
  | noImpliedLiteral (level : Nat)
  /-- The run ended. -/
  | verdict (sat : Bool) (decisions conflicts : Nat)
deriving DecidableEq

/-- The event as a line of a log: its severity and its text. -/
def Event.line : Event → String
  | implied l c => "TRACE Implied: " ++ l.text ++ " by " ++ c.text
  | decision l level => "TRACE Decision: " ++ l.text ++ " at level " ++ toString level
  | conflict c level learned backjump =>
    "DEBUG Conflict " ++ c.text ++ " at level " ++ toString level ++ ", learned " ++ learned.text ++
      ", backjump to " ++ toString backjump
  | rootConflict c => "DEBUG Conflict at root level: " ++ c.text
  | noImpliedLiteral level =>
    "WARN No implied literal left to resolve at level " ++ toString level ++
      ", learning a non-asserting clause"
  | verdict sat decisions conflicts =>
    "INFO " ++ (if sat then "SAT" else "UNSAT") ++ " after " ++ toString decisions ++
      " decisions, " ++ toString conflicts ++ " conflicts"

/-! ## Trail, watches and log -/

/-- What propagation changes: the trail, the watches and the log. -/
structure Progress where
  trail : Trail
  watcher : Watcher
  /-- The events of the run, the last one first. -/
  log : List Event
deriving DecidableEq

namespace Progress

/-- The events of the run in order. -/
def events (p : Progress) : List Event := p.log.reverse

/-- Assigns a literal that a clause forces, and logs it. -/
def imply : Progress → Literal → ClauseRef → Clause → Except Fault Progress
  | ⟨trail, watcher, log⟩, l, r, c => do
    return ⟨← trail.pushImplied l r, watcher, .implied l c :: log⟩

/-- Changes one watched position of a clause; `l` is the literal at the new one. -/
def rewatch : Progress → ClauseRef → Watch → Literal → Except Fault Progress
  | ⟨trail, watcher, log⟩, r, x, l => do
    return ⟨trail, ← watcher.rewatch trail r x l, log⟩

/-- Replaces the list of clauses that watch the literal of a code. -/
def setList : Progress → Nat → List ClauseRef → Progress
  | ⟨trail, watcher, log⟩, code, refs => ⟨trail, watcher.setList code refs, log⟩

/-! ## Propagation by scanning -/

/-- One pass over the clauses. It ends at the first falsified clause, which it returns. -/
def scanPass : List (ClauseRef × Clause) → Progress →
    Except Fault (Option ClauseRef × Progress)
  | [], p => .ok (none, p)
  | (r, c) :: rest, p =>
    match c.status p.trail with
    | .unit l => do scanPass rest (← p.imply l r c)
    | .falsified => .ok (some r, p)
    | .satisfied | .unresolved => scanPass rest p

/-- At most `passes` passes, and none after one that assigned nothing. -/
def scanPasses (store : ClauseStore) : Nat → Progress → Except Fault (Option ClauseRef × Progress)
  | 0, p => .ok (none, p)
  | passes + 1, p => do
    match ← scanPass store.entries p with
    | (some r, q) => return (some r, q)
    | (none, q) => if q.trail.size = p.trail.size then return (none, q) else scanPasses store passes q

/-- Scans until nothing changes, and returns the first falsified clause found. Each pass but the last
assigns a variable, which bounds their number. -/
def scan (store : ClauseStore) (p : Progress) : Except Fault (Option ClauseRef × Progress) :=
  scanPasses store (p.trail.numVariables + 1) p

end Progress

end ClauseLearning
