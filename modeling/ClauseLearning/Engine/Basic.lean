import ClauseLearning.Engine.Analysis
import ClauseLearning.Engine.Policy
import ClauseLearning.Engine.Watching

/-!
# The engine

The engine decides one formula by conflict-driven clause learning: propagate, decide, and learn a
clause from each conflict. It is a machine of small transitions between states; a run follows them
until a state without a transition is reached. Learned clauses are kept from run to run, the trail is
not.

* `Engine.ofFormula`, `Engine.withPolicy`: an engine that has not run.
* `Engine.step`: one transition.
* `Engine.solve`: a run from an empty trail.
-/

namespace ClauseLearning

/-- What the engine does next, or how it ended. -/
inductive State where
  | propagating
  | conflict (r : ClauseRef)
  | deciding
  | satisfied
  | unsatisfied
  | faulted (f : Fault)
  /-- The bound on the transitions is used up. -/
  | unfinished
deriving DecidableEq

/-- No transition leaves the state. -/
def State.isFinal : State → Bool
  | .propagating | .conflict _ | .deciding => false
  | .satisfied | .unsatisfied | .faulted _ | .unfinished => true

/-- The answer of a run. -/
inductive Verdict where
  | sat
  | unsat
  | faulted (f : Fault)
  | unfinished
deriving DecidableEq

/-- An engine for one formula, with a policy whose memory is of type `σ`. -/
structure Engine (σ : Type) extends Progress where
  store : ClauseStore
  /-- The variables of the formula, in ascending order. -/
  vars : Array Var
  config : Config
  policy : Policy σ
  memory : σ
  /-- The counters of the current run. -/
  stats : Stats

namespace Engine

variable {σ : Type}

/-- An engine with a policy of its own in place of the configured phase. -/
def withPolicy (f : Formula) (config : Config) (policy : Policy σ) (memory : σ) : Engine σ :=
  let store := ClauseStore.ofFormula f
  let trail := Trail.empty store.vars
  { store, trail, config, policy, memory
    vars := store.vars
    watcher := ⟨#[], #[], 0, #[]⟩
    log := []
    stats := {} }

/-- An engine that decides by the configured phase. -/
def ofFormula (f : Formula) (config : Config) : Engine Bool :=
  withPolicy f config config.phase.policy false

/-! ## Transitions -/

/-- Starts a run: nothing assigned, every clause watched anew, counters and log empty. -/
def restart (e : Engine σ) : Except Fault (Engine σ) := do
  let trail := e.trail.reset
  let watcher ← Watcher.ofStore e.store trail
  return { e with trail, watcher, log := [], stats := {} }

/-- Unit propagation as configured. -/
def propagateClauses (e : Engine σ) : Except Fault (Option ClauseRef × Progress) :=
  match e.config.propagation with
  | .watchedLiterals => e.toProgress.propagate e.store
  | .fullScan => e.toProgress.scan e.store

/-- Propagates; without a conflict, the formula is satisfied if every variable is assigned. -/
def propagate (e : Engine σ) : Except Fault (Engine σ × State) := do
  let (conflict, p) ← e.propagateClauses
  let implied := p.trail.size - e.trail.size
  let stats := { e.stats with propagations := e.stats.propagations + implied }
  let state := match conflict with
    | some r => .conflict r
    | none => if p.trail.size = e.vars.size then .satisfied else .deciding
  return ({ e with toProgress := p, stats }, state)

/-- Asks the policy and opens a level with its answer. Without an answer the formula counts as
satisfied. The policy remembers an answer that faults too. -/
def decideNext (e : Engine σ) : Engine σ × State :=
  match e.policy.choose e.memory e.trail e.vars with
  | (none, memory) => ({ e with memory }, .satisfied)
  | (some l, memory) =>
    let stats := { e.stats with decisions := e.stats.decisions + 1 }
    match e.trail.pushDecision l with
    | .error f => ({ e with memory, stats }, .faulted f)
    | .ok trail => ({ e with memory, trail, stats, log := .decision l trail.level :: e.log }, .propagating)

/-- Undoes the levels above the level of return. -/
def backjump (e : Engine σ) (level : Nat) : Engine σ :=
  let trail := e.trail.backtrack level
  { e with trail, watcher := e.watcher.backtrack trail }

/-- Appends a learned clause to the store and watches it. A clause of one literal is asserted at
once, unless its variable is assigned. -/
def learn (e : Engine σ) (c : Clause) : Except Fault (Engine σ) := do
  let r := e.store.nextRef
  let watcher ← e.watcher.attach r c e.trail
  let stats := { e.stats with learned := e.stats.learned + 1 }
  let e := { e with store := e.store.push c, watcher, stats }
  match c.unit? with
  | none => return e
  | some l =>
    if e.trail.isAssigned l.var then return e
    else
      let trail ← e.trail.pushImplied l r
      let stats := { e.stats with propagations := e.stats.propagations + 1 }
      return { e with trail, stats }

/-- The log with what was found out about a conflict. -/
def logAnalysis (e : Engine σ) (c : Clause) (a : Analysis) : List Event :=
  let log := if a.exit = .noImpliedLiteral then .noImpliedLiteral e.trail.level :: e.log else e.log
  .conflict c e.trail.level a.learned a.backjump :: log

/-- Learns from a conflict and jumps back; a conflict at the root level refutes the formula. -/
def resolveConflict (e : Engine σ) (r : ClauseRef) : Except Fault (Engine σ × State) := do
  let c ← e.store.fetch r
  let stats := { e.stats with conflicts := e.stats.conflicts + 1 }
  if e.trail.level = 0 then
    return ({ e with stats, log := .rootConflict c :: e.log }, .unsatisfied)
  else
    let a ← analyze e.store e.trail e.config.resolution c
    if a.exit = .unfinished then return ({ e with stats }, .unfinished)
    else
      let e := { e with stats, log := e.logAnalysis c a }
      return (← (e.backjump a.backjump).learn a.learned, .propagating)

/-- The transition that leaves a state. -/
def transition (e : Engine σ) : State → Except Fault (Engine σ × State)
  | .propagating => e.propagate
  | .deciding => .ok e.decideNext
  | .conflict r => e.resolveConflict r
  | state => .ok (e, state)

/-- One transition; a fault ends the run. -/
def step (e : Engine σ) (state : State) : Engine σ × State :=
  match e.transition state with
  | .ok next => next
  | .error f => (e, .faulted f)

/-! ## Runs -/

/-- Follows at most `steps` transitions. -/
def run : Nat → Engine σ → State → Engine σ × State
  | 0, e, state => (e, if state.isFinal then state else .unfinished)
  | steps + 1, e, state =>
    if state.isFinal then (e, state)
    else
      let (e, state) := e.step state
      run steps e state

/-- A bound on the transitions of a run: each conflict but the last teaches a clause that was not in
the store, one of three possibilities for each variable, and between two conflicts each variable is
decided at most once. -/
def stepBound (e : Engine σ) : Nat := (Nat.pow 3 e.vars.size + 2) * (2 * e.vars.size + 4)

/-- Logs the verdict. -/
def conclude (e : Engine σ) (sat : Bool) : Engine σ :=
  { e with log := .verdict sat e.stats.decisions e.stats.conflicts :: e.log }

/-- Decides the formula. -/
def solve (e : Engine σ) : Verdict × Engine σ :=
  match e.restart with
  | .error f => (.faulted f, e)
  | .ok e =>
    match e.run e.stepBound .propagating with
    | (e, .satisfied) => (.sat, e.conclude true)
    | (e, .unsatisfied) => (.unsat, e.conclude false)
    | (e, .faulted f) => (.faulted f, e)
    | (e, _) => (.unfinished, e)

end Engine

end ClauseLearning
