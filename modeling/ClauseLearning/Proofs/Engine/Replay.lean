import ClauseLearning.Proofs.Engine.FirstModel
import ClauseLearning.Proofs.Engine.Fixpoints
import ClauseLearning.Proofs.Engine.History
import Mathlib.Data.List.Infix

/-!
# Running an engine again

A run starts with the store of the run before. What that run had to learn is there now, so the next
run comes to the same answer without a conflict above the root level.

* `Engine.Refutes`, `Refutes.move`: after `unsat`, unit propagation alone ends in a conflict.
* `Ordered.getElem?_decisions`: which decision comes next on an ordered trail.
* `Engine.Follows`, `Reached.follows`: after `sat` with positive decisions, the run makes the
  decisions of the trail that the run before ended with.
* `Session.solve_replays`: both together, for calls of `Engine.solve`.
-/

namespace ClauseLearning

/-! ## The decisions of a log -/

/-- The literal of a decision. -/
def Event.decision? : Event → Option Literal
  | .decision l _ => some l
  | _ => none

/-- The literals decided so far, in order. -/
def Progress.decisionsMade (p : Progress) : List Literal := p.events.filterMap Event.decision?

/-- A record adds the decision that it is about, if any. -/
theorem Progress.decisionsMade_cons {p q : Progress} {ev : Event} (h : q.log = ev :: p.log) :
    q.decisionsMade = p.decisionsMade ++ ev.decision?.toList := by
  rw [decisionsMade, events, h, List.reverse_cons, List.filterMap_append, decisionsMade, events]
  cases hev : ev.decision? <;> simp [hev]

/-- Unit propagation logs no decision. -/
theorem Progress.Derives.decisionsMade {store : ClauseStore} {p q : Progress}
    (h : p.Derives store q) (hw : p.trail.WellFormed) : q.decisionsMade = p.decisionsMade := by
  obtain ⟨is, -, -, -, hevents, -⟩ := h.exists_implications hw
  simp [Progress.decisionsMade, hevents, List.filterMap_append, List.filterMap_map,
    Function.comp_def, Implication.event, Event.decision?]

/-! ## After a refutation -/

/-- Unit propagation from the clauses alone can falsify one of them. -/
def ClauseStore.Refuted (store : ClauseStore) : Prop :=
  ∃ t : Trail, t.WellFormed ∧ t.Justified store ∧ t.level = 0 ∧
    ∃ c ∈ store.clauses, t.Falsifies c

namespace Engine

variable {σ : Type} {f : Formula} {config : Config} {policy : Policy σ} {e e' : Engine σ}
  {s s' : State} {store : ClauseStore}

/-- What holds in a run that goes straight to a conflict at the root level. -/
structure Refutes (store : ClauseStore) (e : Engine σ) (s : State) : Prop where
  store : e.store = store
  level : e.trail.level = 0
  decisions : e.stats.decisions = 0
  learned : e.stats.learned = 0
  state : match s with
    | .propagating | .conflict _ => e.stats.conflicts = 0
    | .unsatisfied => e.stats.conflicts = 1
    | _ => False

theorem Refutes.restart (h : e.Sound f config policy) (hr : e.restart = .ok e') :
    e'.Refutes e.store .propagating := by
  obtain ⟨w, -, rfl⟩ := h.restart_eq hr
  exact ⟨rfl, rfl, rfl, rfl, rfl⟩

/-- Unit propagation reaches the conflict in whatever order it goes. -/
theorem Refutes.move (hstore : store.Refuted) (h : e.Running f config policy)
    (hr : e.Refutes store s) (hm : e.Move s e' s') : e'.Refutes store s' := by
  cases hm with
  | @propagate o q hq =>
    cases o with
    | some r =>
      have hlevel := (hq.derives.continues h.wellFormed).level
      exact ⟨hr.store, hlevel.trans hr.level, hr.decisions, hr.learned, hr.state⟩
    | none =>
      obtain ⟨t, hw, hj, hlevel, c, hc, hf⟩ := hstore
      rw [← hr.store] at hj hc
      have hnone : t.decisions = [] := by
        rw [← List.length_eq_zero_iff, hw.length_decisions, hlevel]
      exact absurd hf (hj.not_falsifies hw (hq.derives.wellFormed h.wellFormed) (hq.settled rfl)
        (by simp [hnone]) hc)
  | stop => exact hr.state.elim
  | fault => exact hr.state.elim
  | decide => exact hr.state.elim
  | refute =>
    have hconflicts := hr.state
    exact ⟨hr.store, hr.level, hr.decisions, hr.learned, congrArg (· + 1) hconflicts⟩
  | learn hc hf hl =>
    have := hl.returns.lt_level
    rw [hr.level] at this
    exact absurd this (Nat.not_lt_zero _)

end Engine

/-- A run ends as unsatisfied with such a conflict. -/
theorem Session.Reached.refuted {σ : Type} {f : Formula} {config : Config} {policy : Policy σ}
    {memory : σ} {e : Engine σ} (h : Reached f config policy memory ⟨e, some .unsatisfied⟩) :
    e.store.Refuted := by
  rcases h.cases_run with hs | ⟨e', s', h', hfinal, hstep⟩
  · cases hs
  obtain ⟨hrunning, hs'⟩ := h'.invariant
  generalize hs : State.unsatisfied = s at hstep
  cases hrunning.move hs' hfinal hstep with
  | @propagate o q =>
    cases o with
    | some r => cases hs
    | none =>
      simp only [Engine.afterPropagation] at hs
      split at hs <;> cases hs
  | stop => cases hs
  | fault => cases hs
  | decide => cases hs
  | refute hc hf hl =>
    exact ⟨_, hrunning.wellFormed, hrunning.justified, hl, _,
      ClauseStore.mem_clauses_iff.mpr ⟨_, hc⟩, hf⟩
  | learn => cases hs

/-! ## A trail that agrees with another one up to its level -/

namespace Trail

variable {t u : Trail} {v : Var} {l : Literal} {s : Slot} {n : Nat}

theorem AssignsAt.le_level (hw : t.WellFormed) (h : t.AssignsAt l n) : n ≤ t.level := by
  obtain ⟨s, hs, -, rfl⟩ := hw.assignsAt_iff_slot.mp h
  exact hw.level_le hs

variable (hw : t.WellFormed) (hu : u.WellFormed)
  (hagree : ∀ l, t.AssignsUpTo l t.level ↔ u.AssignsUpTo l t.level)

include hw hu hagree

/-- The variables of `t` are those that `u` has up to the level of `t`. -/
private theorem level_le_iff (hs : u.slot v = some s) :
    s.level ≤ t.level ↔ ∃ s', t.slot v = some s' := by
  constructor
  · intro hle
    obtain rfl := hu.literal_var hs
    obtain ⟨n, -, hl⟩ := (hagree s.literal).mpr
      ⟨s.level, hle, hu.assignsAt_iff_slot.mpr ⟨s, hs, rfl, rfl⟩⟩
    obtain ⟨s', hs', -⟩ := hw.assignsAt_iff_slot.mp hl
    exact ⟨s', hs'⟩
  · rintro ⟨s', hs'⟩
    obtain rfl := hw.literal_var hs'
    obtain ⟨n, hn, hl⟩ := (hagree s'.literal).mp
      ⟨s'.level, hw.level_le hs', hw.assignsAt_iff_slot.mpr ⟨s', hs', rfl, rfl⟩⟩
    obtain ⟨s'', hs'', -, rfl⟩ := hu.assignsAt_iff_slot.mp hl
    obtain rfl := Option.some.inj (hs.symm.trans hs'')
    exact hn

/-- If `u` is ordered, its next decision is on the smallest variable that `t` does not have. -/
theorem Ordered.getElem?_decisions (hordered : u.Ordered) (hs : u.slot v = some s)
    (hfree : t.slot v = none)
    (hsmaller : ∀ w ∈ u.vars, w.id < v.id → ∃ s, t.slot w = some s) :
    u.decisions[t.level]? = some ⟨v, true⟩ := by
  have hiff : ∀ {w s}, u.slot w = some s → (s.level ≤ t.level ↔ ∃ s', t.slot w = some s') :=
    fun hs => level_le_iff hw hu hagree hs
  have habove : t.level < s.level := by
    refine Nat.lt_of_not_le fun hle => ?_
    obtain ⟨s', hs'⟩ := (hiff hs).mp hle
    rw [hfree] at hs'
    cases hs'
  have hlt : t.level < u.decisions.length := by
    rw [hu.length_decisions]
    exact Nat.lt_of_lt_of_le habove (hu.level_le hs)
  obtain ⟨d, hd⟩ : ∃ d, u.decisions[t.level]? = some d := ⟨_, List.getElem?_eq_getElem hlt⟩
  obtain ⟨s', hs', hlit, hreason, hlevel⟩ := hu.getElem?_decisions_eq_some_iff.mp hd
  obtain ⟨hpos, hlower⟩ := hordered hs' hreason
  -- A smaller variable would be assigned already, and a larger one decided above `v`.
  have hvar : d.var = v := by
    rcases Nat.lt_trichotomy d.var.id v.id with hlt | heq | hgt
    · have := (hiff hs').mpr (hsmaller _ (mem_vars_of_slot hs') hlt)
      omega
    · exact Var.ext_id heq
    · obtain ⟨s'', hs'', hlevel'⟩ := hlower v (mem_vars_of_slot hs) hgt
      obtain rfl := Option.some.inj (hs.symm.trans hs'')
      omega
  rw [hd, ← hvar, ← hpos, hlit]

/-- If `t` has every variable, `u` has no further level. -/
private theorem level_le_of_total (htotal : ∀ v ∈ u.vars, ∃ s, t.slot v = some s) :
    u.level ≤ t.level := by
  refine Nat.le_of_not_lt fun hlt => ?_
  rw [← hu.length_decisions] at hlt
  obtain ⟨s, hs, -, -, hlevel⟩ :=
    hu.getElem?_decisions_eq_some_iff.mp (List.getElem?_eq_getElem hlt)
  have := (level_le_iff hw hu hagree hs).mpr (htotal _ (mem_vars_of_slot hs))
  omega

end Trail

/-! ## After a model -/

namespace Engine

variable {σ : Type} {f : Formula} {config : Config} {policy : Policy σ} {d e e' : Engine σ}
  {s : State}

/-- What holds in a run that makes the decisions of the trail of `d` again. -/
structure Follows (d e : Engine σ) (s : State) : Prop where
  store : e.store = d.store
  decisions : e.trail.decisions <+: d.trail.decisions
  made : e.decisionsMade = e.trail.decisions
  conflicts : e.stats.conflicts = 0
  learned : e.stats.learned = 0
  state : match s with
    | .propagating | .deciding | .satisfied => True
    | _ => False

namespace Follows

theorem restart (h : e.Sound f config policy) (hstore : e.store = d.store)
    (hr : e.restart = .ok e') : d.Follows e' .propagating := by
  obtain ⟨w, -, rfl⟩ := h.restart_eq hr
  exact ⟨hstore, List.nil_prefix, rfl, rfl, rfl, trivial⟩

variable (hd : d.Running f config policy) (hds : d.InState f .satisfied)
  (h : e.Running f config policy) (hf : d.Follows e s)

include hd hds h hf

/-- A propagation has no conflict, since the trail of `d` would falsify the same clause. -/
theorem eq_none {o : Option ClauseRef} {q : Progress} (hq : e.toProgress.Propagated e.store o q) :
    o = none := by
  refine Option.eq_none_iff_forall_ne_some.mpr fun r hr => ?_
  obtain ⟨c, hc, hfalse⟩ := hq.falsified hr
  have hj := hq.derives.justified h.wellFormed h.justified
  rw [hf.store] at hc hj
  refine hj.not_falsifies (hq.derives.wellFormed h.wellFormed) hd.wellFormed hds (fun l hl => ?_)
    (ClauseStore.mem_clauses_iff.mpr ⟨r, hc⟩) hfalse
  rw [(hq.derives.continues h.wellFormed).decisions h.wellFormed] at hl
  exact hd.wellFormed.value_of_mem_decisions (hf.decisions.subset hl)

/-- Once every clause is settled, the trail agrees with that of `d` up to each of its levels. -/
theorem assignsUpTo_iff (hsettles : ∀ c ∈ e.store.clauses, e.trail.Settles c) {k : Nat}
    (hk : k ≤ e.trail.level) (l : Literal) :
    e.trail.AssignsUpTo l k ↔ d.trail.AssignsUpTo l k := by
  refine (h.saturated hsettles k).congr (hf.store ▸ hd.saturated hds k) ?_ l
  obtain ⟨rest, hrest⟩ := hf.decisions
  rw [← hrest, List.take_append_of_le_length]
  rw [h.wellFormed.length_decisions]
  exact hk

/-- With every variable assigned, the trail is that of `d` but for the order of its literals. -/
theorem assignsAt_iff (hs : e.InState f .satisfied) (hsize : e.trail.size = e.vars.size) :
    e.trail.decisions = d.trail.decisions ∧
      ∀ l n, e.trail.AssignsAt l n ↔ d.trail.AssignsAt l n := by
  have hle : d.trail.level ≤ e.trail.level :=
    Trail.level_le_of_total h.wellFormed hd.wellFormed
      (fun l => hf.assignsUpTo_iff hd hds h hs (Nat.le_refl _) l) fun v hv =>
        h.exists_slot hsize (hd.mem_trail_vars.mp hv)
  have hdec : e.trail.decisions = d.trail.decisions := by
    refine hf.decisions.eq_of_length_le ?_
    rw [h.wellFormed.length_decisions, hd.wellFormed.length_decisions]
    exact hle
  refine ⟨hdec, fun l n => ?_⟩
  rcases Nat.lt_or_ge e.trail.level n with hlt | hn
  · have hn : ∀ {u : Trail}, u.WellFormed → u.level < n → ¬u.AssignsAt l n := fun hw hlt hl =>
      absurd (hl.le_level hw) (Nat.not_le_of_lt hlt)
    exact iff_of_false (hn h.wellFormed hlt) (hn hd.wellFormed (Nat.lt_of_le_of_lt hle hlt))
  · exact Trail.assignsAt_congr (fun j hj l => hf.assignsUpTo_iff hd hds h hs hj l) hn l

end Follows

end Engine

namespace Session

variable {f : Formula} {config : Config} {d e e' : Engine Bool} {s s' : State}

/-- With positive decisions, a run on the store of `d` makes the decisions of its trail. -/
theorem Reached.follows (hphase : config.phase = .positive)
    (hd : Reached f config config.phase.policy false ⟨d, some .satisfied⟩)
    (h : Reached f config config.phase.policy false ⟨e, some s⟩)
    (h' : Reached f config config.phase.policy false ⟨e', some s'⟩) (hf : d.Follows e s)
    (hm : e.Move s e' s') : d.Follows e' s' := by
  obtain ⟨hrunning, hs⟩ := h.invariant
  obtain ⟨hrunning', hs'⟩ := hd.invariant
  obtain ⟨hfault, hsize⟩ := (reliable_phase f config).final h'
  have hw := hrunning.wellFormed
  cases hm with
  | @propagate o q hq =>
    obtain rfl := hf.eq_none hrunning' hs' hrunning hq
    have hdec := (hq.derives.continues hw).decisions hw
    refine ⟨hf.store, hdec ▸ hf.decisions,
      (hq.derives.decisionsMade hw).trans (hf.made.trans hdec.symm), hf.conflicts, hf.learned, ?_⟩
    by_cases hsize : q.trail.size = e.vars.size <;> simp [Engine.afterPropagation, hsize]
  | stop => exact absurd (hsize rfl) hs.2.1
  | fault => exact absurd rfl (hfault _)
  | @decide l memory t hm ht =>
    -- Both trails agree so far, and both are ordered: the same variable comes next on them.
    obtain ⟨v, hv, rfl, hfree, hsmaller⟩ := h.choose_positive hphase hm
    obtain ⟨u, hu⟩ := hrunning'.exists_slot (((reliable_phase f config).final hd).2 rfl) hv
    have hnext : d.trail.decisions[e.trail.decisions.length]? = some ⟨v, true⟩ := by
      rw [hw.length_decisions]
      exact Trail.Ordered.getElem?_decisions hw hrunning'.wellFormed
        (fun l => hf.assignsUpTo_iff hrunning' hs' hrunning hs.1 (Nat.le_refl _) l)
        (hd.ordered hphase) hu hfree fun w hw => hsmaller w (hrunning'.mem_trail_vars.mp hw)
    obtain ⟨hlt, hget⟩ := List.getElem?_eq_some_iff.mp hnext
    have hdec : t.decisions = e.trail.decisions ++ [⟨v, true⟩] :=
      (Trail.appends_of_pushDecision hw ht).decisions hw
    refine ⟨hf.store, ?_, ?_, hf.conflicts, hf.learned, trivial⟩
    · show t.decisions <+: d.trail.decisions
      rw [hdec, ← hget]
      exact List.concat_get_prefix hf.decisions hlt
    · show (e.decided _ memory t).decisionsMade = t.decisions
      have hlog : (e.decided ⟨v, true⟩ memory t).log = .decision ⟨v, true⟩ t.level :: e.log := rfl
      rw [hdec, ← hf.made, Progress.decisionsMade_cons hlog]
      rfl
  | refute => exact hf.state.elim
  | learn => exact hf.state.elim

/-! ## Calls -/

/-- A call on a refuted store goes straight to the conflict. -/
theorem exists_solve_refutes {σ : Type} {policy : Policy σ} {memory : σ} {e : Engine σ}
    (h : Reached f config policy memory ⟨e, none⟩) (hstore : e.store.Refuted) :
    ∃ e' : Engine σ, e.solve = (.unsat, e'.finish .unsatisfied) ∧
      e'.Refutes e.store .unsatisfied := by
  obtain ⟨e', s, hsolve, -, hr, hs⟩ := solve_induct (P := fun e' s => e'.Refutes e.store s) h
    (fun hr => Engine.Refutes.restart h.invariant hr)
    fun h _ hr hm => hr.move hstore h.invariant.1 hm
  rcases hs with rfl | rfl | ⟨x, rfl⟩
  · exact hr.state.elim
  · exact ⟨e', hsolve, hr⟩
  · exact hr.state.elim

/-- With positive decisions, a call on the store of `d` makes the decisions of its trail. -/
theorem exists_solve_follows (hphase : config.phase = .positive)
    (hd : Reached f config config.phase.policy false ⟨d, some .satisfied⟩)
    (h : Reached f config config.phase.policy false ⟨e, none⟩) (hstore : e.store = d.store) :
    ∃ e', e.solve = (.sat, e'.finish .satisfied) ∧
      Reached f config config.phase.policy false ⟨e', some .satisfied⟩ ∧
      d.Follows e' .satisfied := by
  obtain ⟨e', s, hsolve, h', hf, hs⟩ := solve_induct (P := fun e s => d.Follows e s) h
    (fun hr => Engine.Follows.restart h.invariant hstore hr)
    fun h h' hf hm => hd.follows hphase h h' hf hm
  rcases hs with rfl | rfl | ⟨x, rfl⟩
  · exact ⟨e', hsolve, h', hf⟩
  · exact hf.state.elim
  · exact hf.state.elim

/-- A call after one that answered `unsat` answers the same, whatever the policy, with one conflict
and without a decision. With positive decisions, a call after one that answered `sat` answers the
same without a conflict; it makes the decisions that were left on the trail, and assigns the same
literals at the same levels. Neither of them learns a clause. -/
theorem solve_replays {σ : Type} (f : Formula) (config : Config) :
    (∀ (policy : Policy σ) (memory : σ) (e : Engine σ), Reached f config policy memory ⟨e, none⟩ →
      e.solve.1 = .unsat →
        e.solve.2.solve.1 = .unsat ∧ e.solve.2.solve.2.store = e.solve.2.store ∧
        e.solve.2.solve.2.stats.decisions = 0 ∧ e.solve.2.solve.2.stats.conflicts = 1 ∧
        e.solve.2.solve.2.stats.learned = 0) ∧
    (config.phase = .positive →
      ∀ e, Reached f config config.phase.policy false ⟨e, none⟩ → e.solve.1 = .sat →
        e.solve.2.solve.1 = .sat ∧ e.solve.2.solve.2.store = e.solve.2.store ∧
        e.solve.2.solve.2.stats.conflicts = 0 ∧ e.solve.2.solve.2.stats.learned = 0 ∧
        e.solve.2.solve.2.decisionsMade = e.solve.2.trail.decisions ∧
        ∀ l n, e.solve.2.solve.2.trail.AssignsAt l n ↔ e.solve.2.trail.AssignsAt l n) := by
  constructor
  · intro policy memory e h hunsat
    obtain ⟨d, s, hsolve, hd, hs⟩ := exists_solve h
    rw [hsolve] at hunsat ⊢
    rcases hs with rfl | rfl | ⟨x, rfl⟩
    · cases hunsat
    · obtain ⟨e', hsolve', hr⟩ := exists_solve_refutes (hd.tail (.finish rfl)) hd.refuted
      rw [hsolve']
      exact ⟨rfl, hr.store, hr.decisions, hr.state, hr.learned⟩
    · cases hunsat
  · intro hphase e h hsat
    obtain ⟨d, s, hsolve, hd, hs⟩ := exists_solve h
    rw [hsolve] at hsat ⊢
    rcases hs with rfl | rfl | ⟨x, rfl⟩
    · obtain ⟨e', hsolve', h', hf⟩ :=
        exists_solve_follows hphase hd (hd.tail (.finish rfl)) rfl
      obtain ⟨hrunning, hs⟩ := hd.invariant
      obtain ⟨hrunning', hs'⟩ := h'.invariant
      obtain ⟨hdec, hassigns⟩ := hf.assignsAt_iff hrunning hs hrunning' hs'
        (((reliable_phase f config).final h').2 rfl)
      have hmade : (e'.finish .satisfied).decisionsMade = d.trail.decisions := by
        rw [← hdec, ← hf.made]
        simp [Progress.decisionsMade, Progress.events, Engine.finish, Engine.conclude,
          Event.decision?]
      rw [hsolve']
      exact ⟨rfl, hf.store, hf.conflicts, hf.learned, hmade, hassigns⟩
    · cases hsat
    · cases hsat

/-- Every assignment makes one of these clauses false. -/
def allSigns : Formula :=
  notFirst ++ [.ofList [⟨⟨1, Nat.one_pos⟩, true⟩, ⟨⟨2, Nat.two_pos⟩, true⟩],
    .ofList [⟨⟨1, Nat.one_pos⟩, true⟩, ⟨⟨2, Nat.two_pos⟩, false⟩]]

/-- The first run on `allSigns` has to learn a clause before it ends; the second one decides and
learns nothing. The second run on `notFirst` makes the only decision that the first one has not
taken back. -/
theorem notFirst_replayed :
    ((Engine.ofFormula allSigns {}).solve.2.stats.learned = 1 ∧
      (Engine.ofFormula allSigns {}).solve.2.solve.1 = .unsat ∧
      (Engine.ofFormula allSigns {}).solve.2.solve.2.stats.decisions = 0 ∧
      (Engine.ofFormula allSigns {}).solve.2.solve.2.stats.learned = 0) ∧
    (Engine.ofFormula notFirst {}).solve.2.stats.decisions = 2 ∧
      (Engine.ofFormula notFirst {}).solve.2.solve.1 = .sat ∧
      (Engine.ofFormula notFirst {}).solve.2.solve.2.decisionsMade =
        [⟨⟨2, Nat.two_pos⟩, true⟩] := by
  obtain ⟨hunsat, -, hdecisions, -, hlearned⟩ := (solve_replays allSigns {}).1
    (Phase.policy .positive) false (.ofFormula allSigns {}) .refl (by decide +kernel)
  obtain ⟨hsat, -, -, -, hmade, -⟩ := (solve_replays (σ := Bool) notFirst {}).2 rfl
    (.ofFormula notFirst {}) .refl (by decide +kernel)
  refine ⟨⟨by decide +kernel, hunsat, hdecisions, hlearned⟩, by decide +kernel, hsat, ?_⟩
  rw [hmade]
  decide +kernel

end Session

end ClauseLearning
