import ClauseLearning.Proofs.Outcomes
import ClauseLearning.Proofs.Propagation.Entries
import ClauseLearning.Proofs.Propagation.Upkeep

/-!
# Sequences of calls

What becomes of the watches when clauses are attached, assignments propagated and levels undone, in
any order and number. Between two calls the trail may be assigned, as a decision or by a clause.

* `Tables`, `Tables.Call`: what the calls work on, and the calls.
* `Tables.Reached`: the tables to which a sequence of calls has led.
* `Consistent.exists_apply`: one call returns, and keeps the tables consistent.
* `Reached.consistent`: so any sequence does.
* `Reached.attachAll`: attaching all clauses of a list is such a sequence.
-/

namespace ClauseLearning

/-- The clauses, the trail and the watches. -/
structure Tables where
  store : ClauseStore
  trail : Trail
  watcher : Watcher

namespace Tables

/-- A call, or an assignment between two calls. -/
inductive Call where
  /-- Appends the clause to the store and starts to watch it. -/
  | attach (c : Clause)
  /-- Propagates, with the log of what has happened before. -/
  | propagate (log : List Event)
  /-- Undoes the levels above a level. -/
  | backtrack (level : Nat)
  | decide (l : Literal)
  | imply (l : Literal) (r : ClauseRef)
deriving DecidableEq

namespace Call

/-- The tables at the return of the call. -/
def apply (x : Tables) : Call → Except Fault Tables
  | .attach c => do
    let watcher ← x.watcher.attach x.store.nextRef c x.trail
    return { x with store := x.store.push c, watcher }
  | .propagate log => do
    let (_, p) ← Progress.propagate x.store ⟨x.trail, x.watcher, log⟩
    return { x with trail := p.trail, watcher := p.watcher }
  | .backtrack k =>
    let trail := x.trail.backtrack k
    .ok { x with trail, watcher := x.watcher.backtrack trail }
  | .decide l => do return { x with trail := ← x.trail.pushDecision l }
  | .imply l r => do return { x with trail := ← x.trail.pushImplied l r }

/-- Clauses are over the variables of the trail, and only a free one may be assigned. -/
def Allowed (x : Tables) : Call → Prop
  | .attach c => ∀ l ∈ c, l.var ∈ x.trail.vars
  | .decide l | .imply l _ => l.var ∈ x.trail.vars ∧ x.trail.isAssigned l.var = false
  | .propagate _ | .backtrack _ => True

end Call

/-- No clauses, and nothing assigned. -/
def fresh (vs : Array Var) (formulaSize : Nat) : Tables :=
  ⟨⟨#[], formulaSize⟩, .empty vs, .empty (.empty vs)⟩

/-- A sequence of calls leads to the tables. -/
inductive Reached (vs : Array Var) : Tables → Prop
  | fresh (formulaSize : Nat) : Reached vs (fresh vs formulaSize)
  | next {x y : Tables} (call : Call) (hx : Reached vs x) (hallowed : call.Allowed x)
      (hy : call.apply x = .ok y) : Reached vs y

/-- The trail and the watcher fit the store, and the lists are right. -/
def Consistent (x : Tables) : Prop := Progress.Consistent x.store ⟨x.trail, x.watcher, []⟩

variable {x y : Tables} {call : Call} {vs : Array Var} {l : Literal} {r : ClauseRef} {t : Trail}

namespace Consistent

theorem progress (h : x.Consistent) (log : List Event) :
    Progress.Consistent x.store ⟨x.trail, x.watcher, log⟩ :=
  ⟨⟨h.store_over, h.wellFormed, h.shape⟩, h.listed⟩

theorem of_progress {p : Progress} (h : Progress.Consistent x.store p) :
    Consistent { x with trail := p.trail, watcher := p.watcher } :=
  ⟨⟨h.store_over, h.wellFormed, h.shape⟩, h.listed⟩

theorem fresh (hs : Ascending.Sorted Var.id vs.toList) (n : Nat) : (fresh vs n).Consistent :=
  have hfresh := Watcher.fresh_empty (.empty vs) n
  ⟨⟨fun c hc => absurd hc (Array.not_mem_empty c), .empty hs, hfresh.shape⟩, hfresh.listed⟩

theorem attach (h : x.Consistent) {c : Clause} (hc : ∀ l ∈ c, l.var ∈ x.trail.vars) :
    ∃ y, (Call.attach c).apply x = .ok y ∧ y.Consistent := by
  obtain ⟨w, hattach, hshape, -, -, -, hlisted⟩ :=
    Watcher.attach_spec h.wellFormed.sorted h.shape c
  have happly : (Call.attach c).apply x = .ok ⟨x.store.push c, x.trail, w⟩ := by
    simp only [Call.apply, hattach, bind, Except.bind]
    rfl
  refine ⟨_, happly, ⟨fun d hd => ?_, h.wellFormed, hshape⟩, hlisted h.listed⟩
  rcases ClauseStore.mem_push.mp hd with hd | rfl
  · exact h.store_over d hd
  · exact hc

theorem propagate (h : x.Consistent) (log : List Event) :
    ∃ y, (Call.propagate log).apply x = .ok y ∧ y.Consistent := by
  obtain ⟨o, q, hq, -, hconsistent, -⟩ := Progress.exists_propagate (h.progress log)
  exact ⟨_, by simp only [Call.apply, hq, bind, Except.bind]; rfl, of_progress hconsistent⟩

theorem backtrack (h : x.Consistent) (k : Nat) :
    ∃ y, (Call.backtrack k).apply x = .ok y ∧ y.Consistent := by
  have hvars : (x.trail.backtrack k).vars = x.trail.vars := Trail.vars_backtrack x.trail k
  exact ⟨_, rfl, ⟨hvars ▸ h.store_over, h.wellFormed.backtrack k, h.shape.backtrack k⟩,
    h.listed.backtrack k⟩

/-- An assignment does not touch the lists. -/
theorem assign (h : x.Consistent) {reason : Reason} (ha : x.trail.Appends l reason t) :
    Consistent { x with trail := t } :=
  ⟨⟨ha.vars ▸ h.store_over, h.wellFormed.append ha, ha.vars ▸ h.shape⟩, h.listed.congr ha.vars⟩

/-- A call that is allowed returns, and keeps the tables consistent. -/
theorem exists_apply (h : x.Consistent) (hallowed : call.Allowed x) :
    ∃ y, call.apply x = .ok y ∧ y.Consistent := by
  have hw := h.wellFormed
  cases call with
  | attach c => exact h.attach hallowed
  | propagate log => exact h.propagate log
  | backtrack k => exact h.backtrack k
  | decide l =>
    obtain ⟨t, ht⟩ := Trail.exists_pushDecision hw.sorted hallowed.1
      (Trail.isAssigned_eq_false_iff.mp hallowed.2)
    exact ⟨_, by simp only [Call.apply, ht, bind, Except.bind]; rfl,
      h.assign (Trail.appends_of_pushDecision hw ht)⟩
  | imply l r =>
    obtain ⟨t, ht⟩ := Trail.exists_push hw.sorted hallowed.1
      (Trail.isAssigned_eq_false_iff.mp hallowed.2) (.clause r)
    exact ⟨_, by simp only [Call.apply, Trail.pushImplied, ht, bind, Except.bind]; rfl,
      h.assign (Trail.appends_of_pushImplied hw ht)⟩

end Consistent

namespace Reached

/-- Any sequence of calls keeps the tables consistent. -/
theorem consistent (hs : Ascending.Sorted Var.id vs.toList) (h : Reached vs x) : x.Consistent := by
  induction h with
  | fresh n => exact .fresh hs n
  | next call _ hallowed hy ih =>
    obtain ⟨y, hy', hconsistent⟩ := ih.exists_apply hallowed
    obtain rfl := Except.ok.inj (hy.symm.trans hy')
    exact hconsistent

theorem attach (h : Reached vs x) {c : Clause} {w : Watcher}
    (hc : ∀ l ∈ c, l.var ∈ x.trail.vars)
    (hw : x.watcher.attach x.store.nextRef c x.trail = .ok w) :
    Reached vs ⟨x.store.push c, x.trail, w⟩ :=
  .next (.attach c) h hc (by simp only [Call.apply, hw, bind, Except.bind]; rfl)

theorem propagate (h : Reached vs x) (log : List Event) {o : Option ClauseRef} {p : Progress}
    (hp : Progress.propagate x.store ⟨x.trail, x.watcher, log⟩ = .ok (o, p)) :
    Reached vs ⟨x.store, p.trail, p.watcher⟩ :=
  .next (.propagate log) h trivial (by simp only [Call.apply, hp, bind, Except.bind]; rfl)

theorem backtrack (h : Reached vs x) (k : Nat) :
    Reached vs ⟨x.store, x.trail.backtrack k, x.watcher.backtrack (x.trail.backtrack k)⟩ :=
  .next (.backtrack k) h trivial rfl

theorem decide (h : Reached vs x) (ht : x.trail.pushDecision l = .ok t) :
    Reached vs ⟨x.store, t, x.watcher⟩ := by
  obtain ⟨i, hi, hfree, -⟩ := Trail.push_eq_ok ht
  exact .next (.decide l) h
    ⟨Trail.mem_vars_of_index hi, Trail.isAssigned_eq_false_iff.mpr hfree⟩
    (by simp only [Call.apply, ht, bind, Except.bind]; rfl)

theorem imply (h : Reached vs x) (ht : x.trail.pushImplied l r = .ok t) :
    Reached vs ⟨x.store, t, x.watcher⟩ := by
  obtain ⟨i, hi, hfree, -⟩ := Trail.push_eq_ok ht
  exact .next (.imply l r) h
    ⟨Trail.mem_vars_of_index hi, Trail.isAssigned_eq_false_iff.mpr hfree⟩
    (by simp only [Call.apply, ht, bind, Except.bind]; rfl)

/-- Attaching the clauses of a list one after the other. -/
theorem attachAll (cs : List Clause) (h : Reached vs x) {w : Watcher}
    (hcs : ∀ c ∈ cs, ∀ l ∈ c, l.var ∈ x.trail.vars)
    (hw : ((cs.zipIdx x.store.size).map fun (c, i) => (⟨i⟩, c)).foldlM
      (fun w ((r, c) : ClauseRef × Clause) => w.attach r c x.trail) x.watcher = Except.ok w) :
    Reached vs ⟨{ x.store with clauses := x.store.clauses ++ cs.toArray }, x.trail, w⟩ := by
  induction cs generalizing x with
  | nil =>
    cases hw
    simpa using h
  | cons c cs ih =>
    obtain ⟨hc, hcs⟩ := List.forall_mem_cons.mp hcs
    rw [List.zipIdx_cons, List.map_cons, List.foldlM_cons] at hw
    obtain ⟨w₁, hattach, hrest⟩ := bind_eq_ok_iff.mp hw
    have hnext := ih (h.attach hc hattach) hcs (by rwa [ClauseStore.size_push])
    simpa [ClauseStore.push] using hnext

end Reached

end Tables

end ClauseLearning
