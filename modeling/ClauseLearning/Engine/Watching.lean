import ClauseLearning.Engine.Progress

/-!
# Propagation by watches

Pending clauses are evaluated first. Then each assignment of the trail is propagated in order: the
clauses that watch the falsified literal look for another literal to watch, and become unit or
falsified if there is none.

* `Progress.propagate`: propagates what has been assigned since the last call.
* `Progress.falsify`: visits the clauses that watch one literal.
-/

namespace ClauseLearning

namespace Progress

/-- Evaluates pending clauses in full. At a falsified one, it and those behind it stay pending. -/
def propagatePending (store : ClauseStore) : List ClauseRef → Progress →
    Except Fault (Option ClauseRef × Progress)
  | [], p => .ok (none, p)
  | r :: rest, p => do
    let c ← store.fetch r
    match c.status p.trail with
    | .unit l => propagatePending store rest (← p.imply l r c)
    | .falsified =>
      return (some r, { p with watcher := { p.watcher with pending := (r :: rest).toArray } })
    | .satisfied | .unresolved => propagatePending store rest p

/-- The first unwatched position whose literal is not false. -/
def replacement (t : Trail) (c : Clause) (w : Watch) : Option Nat :=
  (List.range c.size).find? fun k =>
    k ≠ w.first && k ≠ w.second && c.literals[k]?.any (t.value · != some false)

/-- What the visit of the clauses watching a falsified literal came to. -/
structure Visit where
  /-- The clauses that go on watching the literal, in order. -/
  kept : List ClauseRef
  /-- The clause that was found falsified. -/
  conflict : Option ClauseRef
  progress : Progress

/-- Visits clauses that watch the falsified literal `l`. A clause whose other watched literal is true
stays; else it moves to a literal that is not false; else its other literal is forced, or the clause
is falsified and the visit ends. -/
def visit (store : ClauseStore) (l : Literal) : List ClauseRef → Progress → Except Fault Visit
  | [], p => .ok ⟨[], none, p⟩
  | r :: rest, p => do
    let c ← store.fetch r
    let w ← p.watcher.fetch r
    let isFirst := (← c.fetch w.first) == l
    let other ← c.fetch (if isFirst then w.second else w.first)
    if p.trail.value other = some true then
      let v ← visit store l rest p
      return { v with kept := r :: v.kept }
    else
      match replacement p.trail c w with
      | some k =>
        let moved : Watch := if isFirst then ⟨k, w.second⟩ else ⟨w.first, k⟩
        visit store l rest (← p.rewatch r moved (← c.fetch k))
      | none =>
        match p.trail.value other with
        | none =>
          let v ← visit store l rest (← p.imply other r c)
          return { v with kept := r :: v.kept }
        | some _ => return ⟨r :: rest, some r, p⟩

/-- Visits every clause that watches `l`, which has just become false. -/
def falsify (store : ClauseStore) (l : Literal) (p : Progress) :
    Except Fault (Option ClauseRef × Progress) :=
  match p.trail.code l with
  | none => .ok (none, p)
  | some code =>
    match p.watcher.lists[code]? with
    | none => .error (.noWatchList code)
    | some refs => do
      let v ← visit store l refs.toList (p.setList code [])
      return (v.conflict, v.progress.setList code v.kept)

/-- Propagates up to `steps` assignments, from the head of the watcher on. -/
def propagateQueue (store : ClauseStore) : Nat → Progress →
    Except Fault (Option ClauseRef × Progress)
  | 0, p => .ok (none, p)
  | steps + 1, p =>
    match p.trail.assigned[p.watcher.head]? with
    | none => .ok (none, p)
    | some l => do
      let head := p.watcher.head + 1
      match ← falsify store l.negate { p with watcher := { p.watcher with head } } with
      | (some r, q) => return (some r, q)
      | (none, q) => propagateQueue store steps q

/-- Propagates every assignment made since the last call, and returns the first falsified clause
found. The trail has at most one assignment for each variable, which bounds the queue. -/
def propagate (store : ClauseStore) (p : Progress) : Except Fault (Option ClauseRef × Progress) := do
  let pending := p.watcher.pending.toList
  match ← propagatePending store pending { p with watcher := { p.watcher with pending := #[] } } with
  | (some r, q) => return (some r, q)
  | (none, q) => propagateQueue store q.trail.numVariables q

end Progress

end ClauseLearning
