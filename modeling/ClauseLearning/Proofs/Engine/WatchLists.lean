import ClauseLearning.Proofs.Engine.Invariant
import ClauseLearning.Proofs.Propagation.Calls
import ClauseLearning.Proofs.Propagation.Compaction

/-!
# The watch lists of an engine

All that an engine does to its watches by watched literals is a sequence of calls: a run attaches
every clause of the store anew, and its transitions propagate, undo levels and attach what was
learned. So its lists are exact at the return of every call, and a visit that is cut short by a
conflict makes no difference.

* `Engine.tables`: what the calls of an engine work on.
* `Sound.tables_restart`, `Running.tables_step`: the calls of a start and of a transition.
* `Session.tables_reached`: the calls of a session.
* `Session.watch_lists_exact`: the lists of every sequence of calls, and those of a session.
-/

namespace ClauseLearning

namespace Engine

variable {σ : Type} {f : Formula} {config : Config} {policy : Policy σ} {e e' : Engine σ}
  {s s' : State} {vs : Array Var}

/-- The clauses, the trail and the watches of the engine. -/
def tables (e : Engine σ) : Tables := ⟨e.store, e.trail, e.watcher⟩

/-- A run begins with the clauses of the store, attached one after the other. -/
theorem Sound.tables_restart (h : e.Sound f config policy) (hr : e.restart = .ok e') :
    e'.tables.Reached f.vars.toArray := by
  obtain ⟨w, hw, -⟩ :=
    Watcher.exists_ofStore (t := .empty e.trail.vars) h.wellFormed.sorted rfl e.store
  have htables : e'.tables = ⟨e.store, .empty e.trail.vars, w⟩ := by
    simp only [Engine.restart, Trail.reset_eq_empty h.wellFormed, hw, bind, Except.bind] at hr
    cases hr
    rfl
  have hover : ∀ c ∈ e.store.clauses.toList, ∀ l ∈ c, l.var ∈ (Trail.empty e.trail.vars).vars :=
    fun c hc => h.store_over c (Array.mem_toList_iff.mp hc)
  rw [Watcher.ofStore, if_neg (by simp [Trail.size, Trail.empty])] at hw
  have hattached := Tables.Reached.attachAll (x := .fresh e.trail.vars e.store.formulaSize)
    e.store.clauses.toList (.fresh _) hover hw
  rw [htables, ← h.trail_vars]
  simpa [Tables.fresh] using hattached

section Step

variable (h : e.Running f config policy) (hx : e.tables.Reached vs)

include h hx

/-- After a conflict the engine undoes levels, attaches the learned clause and perhaps assigns the
literal that it forces. -/
theorem Learns.tables_reached {c d : Clause} {l : Literal} {k : Nat} (hl : e.Learns c d l k e') :
    e'.tables.Reached vs := by
  have hstore : e'.store = e.store.push d := by rw [hl.engine]
  have hover : ∀ m ∈ d, m.var ∈ (e.trail.backtrack k).vars := by
    intro m hm
    obtain ⟨s, hs, -⟩ := hl.returns.falsified.exists_slot h.wellFormed hm
    rw [Trail.vars_backtrack]
    exact Trail.mem_vars_of_slot hs
  have hattached := (hx.backtrack k).attach hover hl.watcher
  rw [tables, hstore]
  rcases hl.trail with ⟨ht, -⟩ | ⟨ht, -⟩
  · rw [ht]
    exact hattached
  · exact hattached.imply ht

variable (hwatches : e.Watches)

include hwatches

/-- A propagation by watches is a call. -/
theorem Running.tables_propagate (hs : e.InState f .propagating) :
    (e.step .propagating).1.tables.Reached vs := by
  obtain ⟨o, q, hq, -⟩ := propagateClauses_spec h hs
  have htables : (e.step .propagating).1.tables = ⟨e.store, q.trail, q.watcher⟩ := by
    simp only [Engine.step, transition, Engine.propagate, hq, bind, Except.bind]
    rfl
  have hcall : e.toProgress.propagate e.store = .ok (o, q) := by
    rw [Watches] at hwatches
    simpa only [propagateClauses, hwatches] using hq
  rw [htables]
  exact hx.propagate e.log hcall

/-- Every transition makes its calls on the tables. -/
theorem Running.tables_step (hs : e.InState f s) (hfinal : s.isFinal = false)
    (hstep : e.step s = (e', s')) : e'.tables.Reached vs := by
  cases h.move hs hfinal hstep with
  | propagate =>
    have := h.tables_propagate hx hwatches hs
    rw [hstep] at this
    exact this
  | stop => exact hx
  | fault => exact hx
  | decide _ ht => exact hx.decide ht
  | refute => exact hx
  | learn _ _ hl => exact hl.tables_reached h hx

end Step

end Engine

namespace Session

variable {σ : Type} {f : Formula} {config : Config} {policy : Policy σ} {memory : σ} {e : Engine σ}
  {s : State} {x y : Session σ}

/-- In the course of a run by watches, the tables are those that a sequence of calls has led to. -/
theorem tables_reached (hmode : config.propagation = .watchedLiterals)
    (h : x.Reached f config policy memory) (hs : x.state = some s) :
    x.engine.tables.Reached f.vars.toArray := by
  have key : x.Invariant f config policy ∧
      ∀ s, x.state = some s → x.engine.tables.Reached f.vars.toArray := by
    refine h.induct (P := fun x => x.Invariant f config policy ∧
      ∀ s, x.state = some s → x.engine.tables.Reached f.vars.toArray)
      ⟨.withPolicy f config policy memory, fun s hs => by cases hs⟩ ?_
    rintro y z ⟨hy, hx⟩ hn
    refine ⟨hy.next hn, fun s hs => ?_⟩
    cases hn with
    | start hr => exact Engine.Sound.tables_restart hy hr
    | step hfinal hstep =>
      obtain ⟨hrunning, hstate⟩ := hy
      have hwatches : Engine.Watches _ := (congrArg Config.propagation hrunning.config).trans hmode
      exact hrunning.tables_step (hx _ rfl) hwatches hstate hfinal hstep
    | finish => cases hs
  exact key.2 s hs

/-- The tables of a run by watches are those that a sequence of calls has led to. Whatever calls are
made, each of them returns, and then every clause stands once in the list of each literal that it
watches and nowhere else.

In particular, visiting the list of a false literal loses no clause and lists none once more, with
or without a conflict, even though the list is compacted in place. -/
theorem watch_lists_exact (f : Formula) (config : Config) (policy : Policy σ) (memory : σ)
    (hmode : config.propagation = .watchedLiterals) :
    (∀ e s, Reached f config policy memory ⟨e, some s⟩ → e.tables.Reached f.vars.toArray) ∧
    (∀ x : Tables, x.Reached f.vars.toArray →
      x.Consistent ∧ x.watcher.Exact x.store x.trail ∧
        ∀ call : Tables.Call, call.Allowed x →
          ∃ y, call.apply x = .ok y ∧ y.Reached f.vars.toArray) ∧
    ∀ (store : ClauseStore) (p : Progress) (l : Literal), Progress.Consistent store p →
      p.trail.value l = some false → ∃ o q, Progress.falsify store l p = .ok (o, q) ∧
        Progress.falsifyInPlace store l p = .ok (o, q) ∧ Progress.Consistent store q ∧
        q.watcher.Exact store q.trail ∧ p.watcher.entries.Perm q.watcher.entries := by
  refine ⟨fun e s h => tables_reached hmode h rfl, fun x hx => ?_, fun store p l hp hl => ?_⟩
  · have hconsistent := hx.consistent (Ascending.sorted_ofList _)
    refine ⟨hconsistent, hconsistent.exact, fun call hallowed => ?_⟩
    obtain ⟨y, hy, -⟩ := hconsistent.exists_apply hallowed
    exact ⟨y, hy, .next call hx hallowed hy⟩
  · obtain ⟨o, q, hq, -, -, -, hconsistent, -⟩ := Progress.exists_falsify hp hl
    exact ⟨o, q, hq, (Progress.falsifyInPlace_eq store l p).trans hq, hconsistent,
      hconsistent.exact, hp.perm_entries hconsistent⟩

/-- On `notFirst` the first decision makes both clauses look for another literal to watch. The first
forces `x2`, the second is falsified, and both keep standing in two lists. -/
theorem notFirst_lists_exact :
    (notFirstAfter 4).state = some (.conflict ⟨1⟩) ∧
      (notFirstAfter 4).engine.watcher.Exact (notFirstAfter 4).engine.store
        (notFirstAfter 4).engine.trail ∧
      ∃ q, Progress.falsifyInPlace (notFirstAfter 3).engine.store ⟨⟨1, Nat.one_pos⟩, false⟩
          (notFirstAfter 3).engine.toProgress = .ok (some ⟨1⟩, q) ∧
        (notFirstAfter 3).engine.watcher.entries.Perm q.watcher.entries ∧
        q.watcher.entries.count ⟨0⟩ = 2 ∧ q.watcher.entries.count ⟨1⟩ = 2 := by
  have hpropagating : (notFirstAfter 3).state = some .propagating := by decide +kernel
  have hconflict : (notFirstAfter 4).state = some (.conflict ⟨1⟩) := by decide +kernel
  have hfalse : (notFirstAfter 3).engine.trail.value ⟨⟨1, Nat.one_pos⟩, false⟩ = some false := by
    decide +kernel
  have hvisit : (Progress.falsify (notFirstAfter 3).engine.store ⟨⟨1, Nat.one_pos⟩, false⟩
      (notFirstAfter 3).engine.toProgress).map Prod.fst = .ok (some ⟨1⟩) := by decide +kernel
  obtain ⟨hreached, hexact, hfalsify⟩ :=
    watch_lists_exact notFirst {} (Phase.policy .positive) false rfl
  have hbefore := hreached _ _ (reached_notFirstAfter hpropagating)
  have hafter := hreached _ _ (reached_notFirstAfter hconflict)
  have hconsistent : Progress.Consistent (notFirstAfter 3).engine.store
      (notFirstAfter 3).engine.toProgress := (hexact _ hbefore).1.progress _
  obtain ⟨o, q, hq, hinPlace, -, -, hperm⟩ := hfalsify _ _ _ hconsistent hfalse
  rw [hq] at hvisit
  obtain rfl : o = some ⟨1⟩ := Except.ok.inj hvisit
  exact ⟨hconflict, (hexact _ hafter).2.1, q, hinPlace, hperm,
    (hperm.count_eq _).symm.trans (by decide +kernel),
    (hperm.count_eq _).symm.trans (by decide +kernel)⟩

end Session

end ClauseLearning
