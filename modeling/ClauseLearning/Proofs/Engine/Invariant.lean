import ClauseLearning.Proofs.Engine.Session
import ClauseLearning.Proofs.Engine.Transitions

/-!
# The invariant of a session

Every event of a session keeps its invariant (`Session.Invariant`): the engine is sound, in the
course of a run the trail is justified and its lower levels are propagated, and each state says what
it should (`Engine.InState`).

* `Sound.restart`, `Running.step`: the start of a run and its transitions.
* `Learns.not_subset`, `Learns.grownFrom`: the learned clause contains no clause of the store and
  follows from the formula.
* `Running.not_satisfiable`: a conflict at the root level refutes the formula.
* `Reached.invariant`: the invariant holds in every session.
-/

namespace ClauseLearning

namespace Engine

variable {σ : Type} {f : Formula} {config : Config} {policy : Policy σ} {e e' : Engine σ}
  {s s' : State} {r : ClauseRef} {c d : Clause} {l : Literal} {k : Nat}

/-! ## The start of a run -/

/-- A run begins with an empty trail and every clause pending. -/
theorem exists_restart (h : e.Sound f config policy) :
    ∃ w, e.restart = .ok { e with
        trail := .empty e.trail.vars, watcher := w, log := [], stats := {} } ∧
      w.Fresh e.store (.empty e.trail.vars) := by
  obtain ⟨w, hw, hfresh⟩ :=
    Watcher.exists_ofStore (t := .empty e.trail.vars) h.wellFormed.sorted rfl e.store
  refine ⟨w, ?_, hfresh⟩
  simp only [restart, Trail.reset_eq_empty h.wellFormed, hw, bind, Except.bind]
  rfl

theorem Sound.restart_eq (h : e.Sound f config policy) (hr : e.restart = .ok e') :
    ∃ w, w.Fresh e.store (.empty e.trail.vars) ∧
      e' = { e with trail := .empty e.trail.vars, watcher := w, log := [], stats := {} } := by
  obtain ⟨w, hw, hfresh⟩ := exists_restart h
  exact ⟨w, hfresh, Except.ok.inj (hr.symm.trans hw)⟩

theorem Sound.restart (h : e.Sound f config policy) (hr : e.restart = .ok e') :
    e'.Running f config policy ∧ e'.InState f .propagating := by
  obtain ⟨w, hfresh, rfl⟩ := h.restart_eq hr
  refine ⟨⟨⟨h.store, h.vars, h.trail_vars, h.config, h.policy, .empty h.wellFormed.sorted⟩,
    .of_no_slots (Trail.slot_empty _), ?_, hfresh.shape⟩, fun _ => .of_fresh rfl hfresh⟩
  exact fun k hk => absurd hk (Nat.not_lt_zero k)

/-! ## Propagation -/

theorem Running.propagated (h : e.Running f config policy) {o : Option ClauseRef} {q : Progress}
    (hq : e.toProgress.Propagated e.store o q) (hshape : q.watcher.Shape e.store q.trail.vars)
    (stats : Stats) : Running f config policy { e with toProgress := q, stats } := by
  have hw := h.wellFormed
  have hw' := hq.derives.wellFormed hw
  have hcont := hq.derives.continues hw
  refine ⟨⟨h.store, h.vars, hcont.vars.trans h.trail_vars, h.config, h.policy, hw'⟩,
    hq.derives.justified hw h.justified, fun k hk c hc => ?_, hshape⟩
  have hk : k < e.trail.level := hcont.level ▸ hk
  exact (h.settled k hk c hc).congr (hcont.slot_backtrack hw hw' hk)

/-! ## Decisions -/

theorem Running.decided (h : e.Running f config policy)
    (hsettles : ∀ c ∈ e.store.clauses, e.trail.Settles c) {memory : σ} {t : Trail}
    (ht : e.trail.pushDecision l = .ok t) : (e.decided l memory t).Running f config policy := by
  have hw := h.wellFormed
  have ha := Trail.appends_of_pushDecision hw ht
  have hlevel := Trail.level_of_pushDecision ht
  refine ⟨⟨h.store, h.vars, ha.vars.trans h.trail_vars, h.config, h.policy, hw.append ha⟩,
    h.justified.appendDecision ha, fun k hk c hc => ?_, ?_⟩
  · -- The level below the decision is the one that has just been propagated.
    have hk : k < t.level := hk
    refine Trail.Settles.congr (ha.slot_backtrack hw hk) ?_
    rcases Nat.lt_or_ge k e.trail.level with hlt | hge
    · exact h.settled k hlt c hc
    · rw [Trail.backtrack_eq_self hge]
      exact hsettles c hc
  · show e.watcher.Shape e.store t.vars
    rw [ha.vars]
    exact h.shape

/-! ## Conflicts -/

/-- A falsified clause at the root level refutes the formula. -/
theorem Running.not_satisfiable (h : e.Running f config policy) (hc : e.store.get? r = some c)
    (hf : e.trail.Falsifies c) (hl : e.trail.level = 0) : ¬Satisfiable f := by
  rintro ⟨a, ha⟩
  have hstore : ∀ c ∈ e.store.clauses, c.Holds a := fun c hc =>
    h.store.satisfies ha c (Array.mem_toList_iff.mpr hc)
  obtain ⟨l, hl', hla⟩ := hstore c (ClauseStore.mem_clauses_iff.mpr ⟨r, hc⟩)
  obtain ⟨s, hs, hneg⟩ := hf.exists_slot h.wellFormed hl'
  have hle := h.wellFormed.level_le hs
  have := h.justified.holds h.wellFormed hstore (k := 0)
    (fun hd hr hle => absurd (h.wellFormed.level_pos_of_decision hd hr) (Nat.not_lt.mpr hle)) hs
    (by omega)
  rw [hneg] at this
  exact Literal.holds_negate.mp this hla

section Learns

variable (h : e.Running f config policy) (hl : e.Learns c d l k e')

include h hl

/-- On the level below the conflict the clauses of the store are settled, and the learned clause is
not: it forces a literal. So it contains none of them. -/
theorem Learns.not_subset {b : Clause} (hb : b ∈ e.store.clauses) : ¬b ⊆ d := by
  intro hsub
  have hlt := hl.returns.lt_level
  have hsettled := h.settled (e.trail.level - 1) (by omega) b hb
  refine (hsettled.mono hsub).not_forces (l := l) ?_
  exact hl.returns.forces h.wellFormed (by omega) (by omega)

theorem Learns.not_mem : d ∉ e.store.clauses := fun hd => hl.not_subset h hd d.subset_refl

theorem Learns.grownFrom : e'.store.GrownFrom f := by
  rw [hl.engine]
  refine h.store.push (h.store.entails hl.entailed) (fun m hm => ?_)
    (fun m hm => hl.returns.negate_not_mem h.wellFormed hm) (hl.not_mem h)
  obtain ⟨s, hs, -⟩ := hl.returns.falsified.exists_slot h.wellFormed hm
  exact h.mem_trail_vars.mp (Trail.mem_vars_of_slot hs)

/-- At the level of return nothing changes but the assignment of a literal that the learned clause
forces. -/
theorem Learns.trail_spec : (e.trail.backtrack k).Continues e'.trail ∧ e'.trail.WellFormed ∧
    e'.trail.Justified e'.store := by
  have hw := h.wellFormed.backtrack k
  have hj := (h.justified.backtrack h.wellFormed k).push d
  have hstore : e'.store = e.store.push d := by rw [hl.engine]
  rw [hstore]
  rcases hl.trail with ⟨ht, -⟩ | ⟨ht, -⟩
  · rw [ht]
    exact ⟨.refl _, hw, hj⟩
  · have ha := Trail.appends_of_pushImplied hw ht
    exact ⟨.of_appends ha, hw.append ha, hj.appendImplied hw ha
      (ClauseStore.get?_push_nextRef e.store d) (hl.returns.asserting h.wellFormed).forces⟩

theorem Learns.level_eq : e'.trail.level = k := by
  obtain ⟨hcont, -⟩ := hl.trail_spec h
  rw [hcont.level, Trail.level_backtrack, Nat.min_eq_left (Nat.le_of_lt hl.returns.lt_level)]

theorem Learns.running : e'.Running f config policy := by
  have hw := h.wellFormed
  have hlevel := hl.level_eq h
  obtain ⟨hcont, hw', hj⟩ := hl.trail_spec h
  have hvars : e'.trail.vars = e.trail.vars := hcont.vars.trans (Trail.vars_backtrack _ _)
  have hstore : e'.store = e.store.push d := by rw [hl.engine]
  refine ⟨⟨hl.grownFrom h, ?_, hvars.trans h.trail_vars, ?_, ?_, hw'⟩, hj, fun j hj c hc => ?_, ?_⟩
  · rw [hl.engine]
    exact h.vars
  · rw [hl.engine]
    exact h.config
  · rw [hl.engine]
    exact h.policy
  · rw [hlevel] at hj
    have hjl : j < (e.trail.backtrack k).level := by
      rw [Trail.level_backtrack]
      exact Nat.lt_min.mpr ⟨hj, Nat.lt_trans hj hl.returns.lt_level⟩
    have hslot : ∀ v, (e'.trail.backtrack j).slot v = (e.trail.backtrack j).slot v := fun v =>
      (hcont.slot_backtrack (hw.backtrack k) hw' hjl v).trans
        (Trail.slot_backtrack_backtrack hw (hw.backtrack k) (Nat.le_of_lt hj) v)
    apply Trail.Settles.congr hslot
    rw [hstore, ClauseStore.mem_push] at hc
    rcases hc with hc | rfl
    · exact h.settled j (Nat.lt_trans hj hl.returns.lt_level) c hc
    · exact hl.returns.settles hw hj
  · obtain ⟨w, hattach, hshape, -⟩ :=
      Watcher.attach_spec (hw.backtrack k).sorted (h.shape.backtrack k) d
    obtain rfl := Except.ok.inj (hattach.symm.trans hl.watcher)
    rw [hstore, hcont.vars]
    exact hshape

/-- After a conflict the learned clause may be propagated. -/
theorem Learns.ready (hq : e.toProgress.Queued e.store e.trail.levelStart) :
    e'.toProgress.Ready e'.store := by
  have hstore : e'.store = e.store.push d := by rw [hl.engine]
  have hready := Progress.Ready.of_learned hq hl.returns.lt_level
    (hl.returns.asserting h.wellFormed) hl.watcher e'.log
  rw [hstore]
  obtain ⟨hcont, -, -⟩ := hl.trail_spec h
  rcases hl.trail with ⟨ht, -⟩ | ⟨-, hsize⟩
  · rw [← ht] at hready
    exact hready
  · refine hready.continues ?_ hcont e'.log
    rcases hl.returns.highest with ⟨-, hk⟩ | ⟨hne, -⟩
    · show (e.trail.backtrack k).level = 0
      rw [hk, Trail.level_backtrack, Nat.zero_min]
    · exact absurd hsize hne

end Learns

/-! ## Transitions -/

/-- Every transition keeps the invariant and leads to a state that says what it should. -/
theorem Running.step (h : e.Running f config policy) (hs : e.InState f s) (hm : e.Move s e' s') :
    e'.Running f config policy ∧ e'.InState f s' := by
  cases hm with
  | @propagate o q hq hshape hsettled =>
    refine ⟨h.propagated hq hshape _, ?_⟩
    cases o with
    | some r => exact ⟨hq.falsified rfl, fun hwatches => (hsettled hwatches).halted (by simp)⟩
    | none =>
      simp only [afterPropagation]
      split
      · exact hq.settled rfl
      · next hsize => exact ⟨hq.settled rfl, hsize, fun hwatches => (hsettled hwatches).queued rfl⟩
  | stop hm => exact ⟨h.recorded _ _ _, hs.1⟩
  | fault hm hx => exact ⟨h.recorded _ _ _, trivial⟩
  | @decide l memory t hm ht =>
    refine ⟨h.decided hs.1 ht, fun hwatches => ?_⟩
    obtain ⟨hqueued, hhead⟩ := hs.2.2 hwatches
    exact .of_decision hqueued hhead (Trail.appends_of_pushDecision h.wellFormed ht) _
  | refute hc hf hl =>
    exact ⟨h.recorded _ _ _, hl, h.not_satisfiable hc hf hl⟩
  | learn hc hf hl =>
    refine ⟨hl.running h, fun hwatches => hl.ready h (hs.2 ?_ ?_)⟩
    · rw [Watches, hl.engine] at hwatches
      exact hwatches
    · exact Nat.zero_lt_of_lt hl.returns.lt_level

end Engine

namespace Session

variable {σ : Type} {f : Formula} {config : Config} {policy : Policy σ} {memory : σ} {e : Engine σ}
  {s : State} {x y : Session σ}

/-- The invariant of a session: an idle engine is sound, and each state of a run says what it
should. -/
def Invariant (f : Formula) (config : Config) (policy : Policy σ) : Session σ → Prop
  | ⟨e, none⟩ => e.Sound f config policy
  | ⟨e, some s⟩ => e.Running f config policy ∧ e.InState f s

theorem Invariant.next (h : x.Invariant f config policy) (hn : Next x y) :
    y.Invariant f config policy := by
  cases hn with
  | start hr => exact Engine.Sound.restart h hr
  | step hs hstep => exact h.1.step h.2 (h.1.move h.2 hs hstep)
  | @finish e s hs =>
    have he : e.Sound f config policy := h.1.toSound
    cases s with
    | satisfied => exact he.recorded _ _ _
    | unsatisfied => exact he.recorded _ _ _
    | propagating => cases hs
    | conflict r => cases hs
    | deciding => cases hs
    | faulted x => exact he
    | unfinished => exact he

theorem Reached.invariant (h : x.Reached f config policy memory) : x.Invariant f config policy :=
  h.induct (.withPolicy f config policy memory) fun hy hn => hy.next hn

end Session

end ClauseLearning
