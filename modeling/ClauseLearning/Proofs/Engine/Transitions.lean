import ClauseLearning.Engine.Basic
import ClauseLearning.Proofs.Conflict.Backjump
import ClauseLearning.Proofs.Engine.LearnedStore

/-!
# The transitions of an engine

* `Engine.Sound`, `Engine.Running`, `Engine.InState`: what holds of an engine between its
  transitions.
* `Engine.Move`: what a transition does to an engine of which this holds. A propagation is complete,
  a conflict ends the run or teaches a clause (`Learns`).
* `Running.move`: every transition is such a move.
-/

namespace ClauseLearning

namespace Engine

variable {σ : Type} {f : Formula} {config : Config} {policy : Policy σ} {e e' : Engine σ}
  {s s' : State} {r : ClauseRef}

/-! ## What holds between transitions -/

/-- What holds of an engine for the formula `f` at any time. -/
structure Sound (f : Formula) (config : Config) (policy : Policy σ) (e : Engine σ) : Prop where
  store : e.store.GrownFrom f
  vars : e.vars = f.vars.toArray
  trail_vars : e.trail.vars = f.vars.toArray
  config : e.config = config
  policy : e.policy = policy
  wellFormed : e.trail.WellFormed

/-- What holds in the course of a run. Every level below the current one has been propagated
completely, and the clauses learned since agree with that. -/
structure Running (f : Formula) (config : Config) (policy : Policy σ) (e : Engine σ) : Prop
    extends Sound f config policy e where
  justified : e.trail.Justified e.store
  settled : ∀ k < e.trail.level, ∀ c ∈ e.store.clauses, (e.trail.backtrack k).Settles c
  shape : e.watcher.Shape e.store e.trail.vars

/-- Propagation goes by watches. -/
def Watches (e : Engine σ) : Prop := e.config.propagation = .watchedLiterals

/-- What each state of a run says about the engine. -/
def InState (f : Formula) (e : Engine σ) : State → Prop
  | .propagating => e.Watches → e.toProgress.Ready e.store
  | .conflict r => (∃ c, e.store.get? r = some c ∧ e.trail.Falsifies c) ∧
      (e.Watches → 0 < e.trail.level → e.toProgress.Queued e.store e.trail.levelStart)
  | .deciding => (∀ c ∈ e.store.clauses, e.trail.Settles c) ∧ e.trail.size ≠ e.vars.size ∧
      (e.Watches → e.toProgress.Queued e.store e.trail.size ∧ e.watcher.head = e.trail.size)
  | .satisfied => ∀ c ∈ e.store.clauses, e.trail.Settles c
  | .unsatisfied => e.trail.level = 0 ∧ ¬Satisfiable f
  | .faulted _ => True
  | .unfinished => False

namespace Sound

theorem withPolicy (f : Formula) (config : Config) (policy : Policy σ) (memory : σ) :
    Sound f config policy (Engine.withPolicy f config policy memory) := by
  have hvars : (ClauseStore.ofFormula f).vars = f.vars.toArray := by
    simp [ClauseStore.vars, ClauseStore.formula, ClauseStore.ofFormula]
  refine ⟨.ofFormula f, hvars, hvars, rfl, rfl, .empty ?_⟩
  exact ClauseStore.sorted_vars _

/-- The memory of the policy, the counters and the log may be any. -/
theorem recorded (h : e.Sound f config policy) (memory : σ) (stats : Stats) (log : List Event) :
    Sound f config policy { e with memory, stats, log } :=
  ⟨h.store, h.vars, h.trail_vars, h.config, h.policy, h.wellFormed⟩

theorem mem_trail_vars (h : e.Sound f config policy) {v : Var} : v ∈ e.trail.vars ↔ v ∈ f.vars := by
  rw [h.trail_vars, List.mem_toArray]

theorem store_over (h : e.Sound f config policy) : e.store.Over e.trail.vars := by
  rw [h.trail_vars]
  exact h.store.overVars

end Sound

theorem Running.recorded (h : e.Running f config policy) (memory : σ) (stats : Stats)
    (log : List Event) : Running f config policy { e with memory, stats, log } :=
  ⟨h.toSound.recorded memory stats log, h.justified, h.settled, h.shape⟩

/-! ## Propagation -/

/-- Propagation never faults and is complete, in both modes. -/
theorem propagateClauses_spec (h : e.Running f config policy) (hs : e.InState f .propagating) :
    ∃ o q, e.propagateClauses = .ok (o, q) ∧ e.toProgress.Propagated e.store o q ∧
      q.watcher.Shape e.store q.trail.vars ∧ (e.Watches → q.Settled e.store o) := by
  unfold propagateClauses
  cases hmode : e.config.propagation with
  | watchedLiterals =>
    obtain ⟨o, q, hq, hprop, hsettled⟩ :=
      Progress.propagate_spec h.store_over h.wellFormed h.shape (hs hmode)
    exact ⟨o, q, hq, hprop, hsettled.shape, fun _ => hsettled⟩
  | fullScan =>
    obtain ⟨o, q, hq, hwatcher, hprop⟩ := Progress.scan_spec h.store_over h.wellFormed
    refine ⟨o, q, hq, hprop, ?_, fun hw => ?_⟩
    · rw [hwatcher, (hprop.derives.continues h.wellFormed).vars]
      exact h.shape
    · rw [Watches, hmode] at hw
      cases hw

/-- The state after a propagation. -/
def afterPropagation (e : Engine σ) (o : Option ClauseRef) (q : Progress) : State :=
  match o with
  | some r => .conflict r
  | none => if q.trail.size = e.vars.size then .satisfied else .deciding

/-- The counters after a propagation. -/
def countPropagations (e : Engine σ) (q : Progress) : Stats :=
  { e.stats with propagations := e.stats.propagations + (q.trail.size - e.trail.size) }

/-! ## Decisions -/

/-- The counters after a decision. -/
def countDecision (e : Engine σ) : Stats := { e.stats with decisions := e.stats.decisions + 1 }

/-- The engine after a decision that makes the trail `t`. -/
def decided (e : Engine σ) (l : Literal) (memory : σ) (t : Trail) : Engine σ :=
  { e with memory, trail := t, stats := e.countDecision, log := .decision l t.level :: e.log }

/-! ## Conflicts -/

/-- The counters after a conflict. -/
def countConflict (e : Engine σ) : Stats := { e.stats with conflicts := e.stats.conflicts + 1 }

/-- The counters after a clause was learned, which may have assigned a literal. -/
def countLearned (e : Engine σ) (k : Nat) (t : Trail) : Stats :=
  { e.stats with
    conflicts := e.stats.conflicts + 1
    learned := e.stats.learned + 1
    propagations := e.stats.propagations + (t.size - (e.trail.backtrack k).size) }

/-- `e'` is `e` after it has learned `d` from the falsified clause `c` and returned to level `k`,
where `d` forces `l`. If `d` has no other literal, `l` is assigned already. -/
structure Learns (e : Engine σ) (c d : Clause) (l : Literal) (k : Nat) (e' : Engine σ) : Prop where
  entailed : Entails e.store.clauses.toList d
  returns : e.trail.ReturnsTo d l k
  watcher : (e.watcher.backtrack (e.trail.backtrack k)).attach e.store.nextRef d
    (e.trail.backtrack k) = .ok e'.watcher
  trail : e'.trail = e.trail.backtrack k ∧ d.size ≠ 1 ∨
    (e.trail.backtrack k).pushImplied l e.store.nextRef = .ok e'.trail ∧ d.size = 1
  engine : e' = { e with
    store := e.store.push d, watcher := e'.watcher, trail := e'.trail
    stats := e.countLearned k e'.trail, log := .conflict c e.trail.level d k :: e.log }

/-- A falsified clause has a literal of the current level: the lower levels have been propagated. -/
theorem conflicting (h : e.Running f config policy) {c : Clause} (hc : e.store.get? r = some c)
    (hf : e.trail.Falsifies c) (hl : 0 < e.trail.level) :
    Analysis.Conflicting e.store e.trail c := by
  have hmem : c ∈ e.store.clauses := ClauseStore.mem_clauses_iff.mpr ⟨r, hc⟩
  refine ⟨hf, fun a ha => ha c (Array.mem_toList_iff.mpr hmem),
    Classical.byContradiction fun hnone => ?_⟩
  apply (h.settled (e.trail.level - 1) (by omega) c hmem).not_falsifies
  intro m hm
  obtain ⟨s, hs, -⟩ := hf.exists_slot h.wellFormed hm
  have hle := h.wellFormed.level_le hs
  have hne : s.level ≠ e.trail.level := fun heq => hnone ⟨m, hm, s, hs, heq⟩
  exact (Trail.value_backtrack_eq_some_iff h.wellFormed).mpr ⟨hf m hm, s, hs, by omega⟩

/-- What learning makes of the engine at the level of return. -/
private theorem exists_learn {c : Clause} {l : Literal} (hw : e.trail.WellFormed)
    (hv : l.var ∈ e.trail.vars) (hc : e.trail.Forces c l)
    (hshape : e.watcher.Shape e.store e.trail.vars) :
    ∃ w t, e.learn c = .ok { e with
        store := e.store.push c, watcher := w, trail := t
        stats := { e.stats with
          learned := e.stats.learned + 1
          propagations := e.stats.propagations + (t.size - e.trail.size) } } ∧
      e.watcher.attach e.store.nextRef c e.trail = .ok w ∧
      (t = e.trail ∧ c.size ≠ 1 ∨
        e.trail.pushImplied l e.store.nextRef = .ok t ∧ c.size = 1) := by
  obtain ⟨w, hattach, -⟩ := Watcher.attach_spec hw.sorted hshape c
  by_cases hsize : c.size = 1
  · have hfree := Trail.value_eq_none_iff.mp hc.unassigned
    obtain ⟨t, ht⟩ := Trail.exists_push hw.sorted hv hfree (.clause e.store.nextRef)
    have hsucc : t.size - e.trail.size = 1 := by
      rw [(Trail.appends_of_pushImplied hw ht).size_eq, Nat.add_sub_cancel_left]
    refine ⟨w, t, ?_, hattach, .inr ⟨ht, hsize⟩⟩
    simp only [learn, hattach, Clause.unit?_of_size_eq_one hsize hc.mem,
      Trail.isAssigned_eq_false_iff.mpr hfree, Trail.pushImplied, ht, bind, Except.bind,
      Bool.false_eq_true, ↓reduceIte, hsucc]
    rfl
  · refine ⟨w, e.trail, ?_, hattach, .inl ⟨rfl, hsize⟩⟩
    simp only [learn, hattach, Clause.unit?_of_size_ne_one hsize, bind, Except.bind, Nat.sub_self]
    rfl

/-- A conflict above the root level teaches a clause. -/
private theorem exists_learns (h : e.Running f config policy) {c : Clause}
    (hc : e.store.get? r = some c) (hf : e.trail.Falsifies c) (hl : 0 < e.trail.level) :
    ∃ d l k e', e.step (.conflict r) = (e', .propagating) ∧ e.Learns c d l k e' := by
  obtain ⟨d, l, k, hanalyze, hentails, hreturns⟩ := analyze_spec h.wellFormed h.justified
    e.config.resolution hl (conflicting h hc hf hl)
  have hw := h.wellFormed.backtrack k
  have hv : l.var ∈ (e.trail.backtrack k).vars := by
    obtain ⟨s, hs, -⟩ := hreturns.current
    rw [Trail.vars_backtrack]
    exact Trail.mem_vars_of_slot hs
  obtain ⟨w, t, hlearn, hattach, htrail⟩ := exists_learn (l := l) (c := d)
    (e := Engine.backjump { e with
      stats := e.countConflict, log := .conflict c e.trail.level d k :: e.log } k)
    hw hv (hreturns.asserting h.wellFormed).forces (h.shape.backtrack k)
  refine ⟨d, l, k, { e with
    store := e.store.push d, watcher := w, trail := t
    stats := e.countLearned k t, log := .conflict c e.trail.level d k :: e.log },
    ?_, hentails, hreturns, hattach, htrail, rfl⟩
  have hne : e.trail.level ≠ 0 := Nat.ne_of_gt hl
  simp only [step, transition, resolveConflict, ClauseStore.fetch_eq_ok hc, hne, hanalyze,
    logAnalysis, bind, Except.bind, reduceCtorEq, ↓reduceIte]
  simp only [countConflict] at hlearn
  rw [hlearn]
  rfl

/-! ## The transitions -/

/-- What a transition does to an engine of which the invariant holds. -/
inductive Move (e : Engine σ) : State → Engine σ → State → Prop
  | propagate {o : Option ClauseRef} {q : Progress} (hq : e.toProgress.Propagated e.store o q)
      (hshape : q.watcher.Shape e.store q.trail.vars) (hsettled : e.Watches → q.Settled e.store o) :
      Move e .propagating { e with toProgress := q, stats := e.countPropagations q }
        (e.afterPropagation o q)
  /-- Without a decision the run ends. -/
  | stop {memory : σ} (hm : e.policy.choose e.memory e.trail e.vars = (none, memory)) :
      Move e .deciding { e with memory } .satisfied
  /-- A literal that cannot be assigned is a fault. -/
  | fault {l : Literal} {memory : σ} {x : Fault}
      (hm : e.policy.choose e.memory e.trail e.vars = (some l, memory))
      (hx : e.trail.pushDecision l = .error x) :
      Move e .deciding { e with memory, stats := e.countDecision } (.faulted x)
  | decide {l : Literal} {memory : σ} {t : Trail}
      (hm : e.policy.choose e.memory e.trail e.vars = (some l, memory))
      (ht : e.trail.pushDecision l = .ok t) :
      Move e .deciding (e.decided l memory t) .propagating
  | refute {r : ClauseRef} {c : Clause} (hc : e.store.get? r = some c) (hf : e.trail.Falsifies c)
      (hl : e.trail.level = 0) :
      Move e (.conflict r) { e with stats := e.countConflict, log := .rootConflict c :: e.log }
        .unsatisfied
  | learn {r : ClauseRef} {c d : Clause} {l : Literal} {k : Nat} {e' : Engine σ}
      (hc : e.store.get? r = some c) (hf : e.trail.Falsifies c) (hl : e.Learns c d l k e') :
      Move e (.conflict r) e' .propagating

private theorem move_propagating (h : e.Running f config policy) (hs : e.InState f .propagating) :
    e.Move .propagating (e.step .propagating).1 (e.step .propagating).2 := by
  obtain ⟨o, q, hq, hprop, hshape, hsettled⟩ := propagateClauses_spec h hs
  have hstep : e.step .propagating =
      ({ e with toProgress := q, stats := e.countPropagations q }, e.afterPropagation o q) := by
    simp only [step, transition, propagate, hq, bind, Except.bind]
    rfl
  rw [hstep]
  exact .propagate hprop hshape hsettled

private theorem move_deciding (e : Engine σ) :
    e.Move .deciding (e.step .deciding).1 (e.step .deciding).2 := by
  cases hm : e.policy.choose e.memory e.trail e.vars with
  | mk answer memory =>
    cases answer with
    | none =>
      simp only [step, transition, decideNext, hm]
      exact .stop hm
    | some l =>
      cases ht : e.trail.pushDecision l with
      | error x =>
        simp only [step, transition, decideNext, hm, ht]
        exact .fault hm ht
      | ok t =>
        simp only [step, transition, decideNext, hm, ht]
        exact .decide hm ht

private theorem move_conflict (h : e.Running f config policy) (hs : e.InState f (.conflict r)) :
    e.Move (.conflict r) (e.step (.conflict r)).1 (e.step (.conflict r)).2 := by
  obtain ⟨⟨c, hc, hf⟩, -⟩ := hs
  rcases Nat.eq_zero_or_pos e.trail.level with hl | hl
  · simp only [step, transition, resolveConflict, ClauseStore.fetch_eq_ok hc, hl, bind, Except.bind,
      ↓reduceIte]
    exact .refute hc hf hl
  · obtain ⟨d, l, k, e', hstep, hlearns⟩ := exists_learns h hc hf hl
    rw [hstep]
    exact .learn hc hf hlearns

/-- Every transition is one of these. -/
theorem Running.move (h : e.Running f config policy) (hs : e.InState f s)
    (hfinal : s.isFinal = false) (hstep : e.step s = (e', s')) : e.Move s e' s' := by
  have hmove : e.Move s (e.step s).1 (e.step s).2 := by
    cases s with
    | propagating => exact move_propagating h hs
    | deciding => exact move_deciding e
    | conflict r => exact move_conflict h hs
    | satisfied => cases hfinal
    | unsatisfied => cases hfinal
    | faulted x => cases hfinal
    | unfinished => cases hfinal
  rw [hstep] at hmove
  exact hmove

end Engine

end ClauseLearning
