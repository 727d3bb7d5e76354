import ClauseLearning.Proofs.Engine.Correctness
import ClauseLearning.Proofs.Logic.FirstModel
import ClauseLearning.Proofs.Trail.Levels

/-!
# The model that positive decisions find

With positive decisions on the smallest unassigned variable, a trail is ordered at any time
(`Trail.Ordered`): below the level of a decision, all smaller variables are assigned. So a variable
that a total trail makes false follows from the formula and from decisions on smaller variables,
whatever was learned and undone on the way, and the model of the trail is the first one.

* `Move.ordered`, `Reached.ordered`: what one transition and a whole session keep.
* `Running.holds_of_smaller`, `Running.firstModel`: the model of an ordered total trail.
* `Session.solve_firstModel`: every engine with positive decisions ends with the same model.
-/

namespace ClauseLearning

/-! ## Positive decisions -/

namespace Trail

variable {t t' : Trail} {l : Literal} {k : Nat}

/-- Every decision makes true the smallest variable that was unassigned when it was made: the
smaller variables were assigned at lower levels. -/
def Ordered (t : Trail) : Prop :=
  ∀ ⦃v s⦄, t.slot v = some s → s.reason = .decision → s.literal.positive = true ∧
    ∀ w ∈ t.vars, w.id < v.id → ∃ s', t.slot w = some s' ∧ s'.level < s.level

namespace Ordered

theorem of_no_slots (h : ∀ v, t.slot v = none) : t.Ordered := by
  intro v s hs
  rw [h] at hs
  cases hs

theorem continues (h : t.Ordered) (hc : t.Continues t') : t'.Ordered := by
  intro v s hs hd
  rcases hc.slot_cases hs with hs | ⟨-, -, -, r, hr⟩
  · obtain ⟨hpos, hsmaller⟩ := h hs hd
    refine ⟨hpos, fun w hw hlt => ?_⟩
    rw [hc.vars] at hw
    obtain ⟨s', hs', hlevel⟩ := hsmaller w hw hlt
    exact ⟨s', hc.slot_old hs', hlevel⟩
  · rw [hr] at hd
    cases hd

theorem backtrack (hw : t.WellFormed) (h : t.Ordered) (k : Nat) : (t.backtrack k).Ordered := by
  intro v s hs hd
  obtain ⟨hs, hk⟩ := (slot_backtrack_eq_some_iff hw).mp hs
  obtain ⟨hpos, hsmaller⟩ := h hs hd
  refine ⟨hpos, fun w hw' hlt => ?_⟩
  rw [vars_backtrack] at hw'
  obtain ⟨s', hs', hlevel⟩ := hsmaller w hw' hlt
  exact ⟨s', (slot_backtrack_eq_some_iff hw).mpr ⟨hs', by omega⟩, hlevel⟩

theorem decision (hw : t.WellFormed) (h : t.Ordered) (ht : t.pushDecision l = .ok t')
    (hpos : l.positive = true)
    (hsmaller : ∀ w ∈ t.vars, w.id < l.var.id → ∃ s, t.slot w = some s) : t'.Ordered := by
  have ha := appends_of_pushDecision hw ht
  have hlevel := level_of_pushDecision ht
  intro v s hs hd
  rcases ha.slot_cases hs with ⟨rfl, rfl⟩ | hs
  · refine ⟨hpos, fun w hw' hlt => ?_⟩
    rw [ha.vars] at hw'
    obtain ⟨s, hs⟩ := hsmaller w hw' hlt
    have := hw.level_le hs
    exact ⟨s, ha.slot_old hs, by simp only; omega⟩
  · obtain ⟨hpos, hsmaller⟩ := h hs hd
    refine ⟨hpos, fun w hw' hlt => ?_⟩
    rw [ha.vars] at hw'
    obtain ⟨s', hs', hlevel⟩ := hsmaller w hw' hlt
    exact ⟨s', ha.slot_old hs', hlevel⟩

end Ordered

end Trail

namespace Engine.Running

variable {σ : Type} {f : Formula} {config : Config} {policy : Policy σ} {e : Engine σ}

/-- On a total trail, the literals of the trail are those that hold in its model. -/
theorem mem_assigned_iff (h : e.Running f config policy) (hsize : e.trail.size = e.vars.size)
    {l : Literal} : l ∈ e.trail.assigned ↔ l.var ∈ f.vars ∧ l.Holds e.trail.model := by
  have hw := h.wellFormed
  rw [hw.mem_assigned_iff]
  constructor
  · intro hv
    obtain ⟨s, hs, -⟩ := Trail.value_eq_true_iff.mp hv
    exact ⟨h.mem_trail_vars.mp (Trail.mem_vars_of_slot hs), hw.holds_model hv⟩
  · rintro ⟨hv, hl⟩
    obtain ⟨s, hs⟩ := h.exists_slot hsize hv
    apply Classical.byContradiction
    intro hne
    have hfalse : e.trail.value l = some false := by
      cases hb : e.trail.value l with
      | none =>
        rw [Trail.value_eq_none_iff.mp hb] at hs
        cases hs
      | some b =>
        cases b with
        | false => rfl
        | true => exact absurd hb hne
    exact Literal.holds_negate.mp (hw.holds_model (hw.value_eq_false_iff_negate.mp hfalse)) hl

/-- On an ordered trail a false variable follows from the formula and from decisions on smaller
variables. -/
theorem holds_of_smaller (h : e.Running f config policy) (hordered : e.trail.Ordered)
    {b : Assignment} (hb : Satisfies b f) {v : Var} {s : Slot} (hs : e.trail.slot v = some s)
    (hneg : s.literal.positive = false)
    (hsmaller : ∀ w ∈ f.vars, w.id < v.id → b w.id = e.trail.model w.id) : s.literal.Holds b := by
  have hw := h.wellFormed
  refine h.justified.holds hw (fun c hc => h.store.satisfies hb c (Array.mem_toList_iff.mpr hc))
    (k := s.level) (fun {u s'} hu hd hle => ?_) hs (Nat.le_refl _)
  obtain ⟨hpos, hlower⟩ := hordered hu hd
  -- A decision on a larger variable would be above the level of `v`.
  have hlt : u.id < v.id := by
    rcases Nat.lt_trichotomy u.id v.id with hlt | heq | hgt
    · exact hlt
    · obtain rfl := Var.ext_id heq
      obtain rfl := Option.some.inj (hs.symm.trans hu)
      rw [hneg] at hpos
      cases hpos
    · obtain ⟨s'', hs'', hlevel⟩ := hlower v (Trail.mem_vars_of_slot hs) hgt
      obtain rfl := Option.some.inj (hs.symm.trans hs'')
      omega
  have hlit := hw.literal_var hu
  have hmodel := hw.holds_model (Trail.value_of_slot hu hlit)
  rw [Literal.Holds, hlit] at hmodel ⊢
  rw [hsmaller u (h.mem_trail_vars.mp (Trail.mem_vars_of_slot hu)) hlt, hmodel]

/-- The model of an ordered total trail is the first one. -/
theorem firstModel (h : e.Running f config policy) (hsize : e.trail.size = e.vars.size)
    (hs : e.InState f .satisfied) (hordered : e.trail.Ordered) :
    FirstModel f e.trail.model := by
  refine ⟨h.satisfies_model hsize hs, fun {b} hb => ?_⟩
  -- The first variable on which `b` differs, if there is one.
  cases hfind : f.vars.find? fun v => b v.id != e.trail.model v.id with
  | none =>
    refine .inl fun v hv => ?_
    simpa using List.find?_eq_none.mp hfind v hv
  | some v =>
    have hv := List.mem_of_find?_eq_some hfind
    have hdiffers : b v.id ≠ e.trail.model v.id := by simpa using List.find?_some hfind
    have hsmaller : ∀ w ∈ f.vars, w.id < v.id → b w.id = e.trail.model w.id := by
      obtain ⟨-, before, after, hlist, hbefore⟩ := List.find?_eq_some_iff_append.mp hfind
      have hsorted := f.sorted_vars
      rw [hlist, Ascending.Sorted, List.pairwise_append, List.pairwise_cons] at hsorted
      intro w hw hlt
      rw [hlist, List.mem_append, List.mem_cons] at hw
      rcases hw with hw | rfl | hw
      · simpa using hbefore w hw
      · exact absurd hlt (Nat.lt_irrefl _)
      · have := hsorted.2.1.1 w hw
        omega
    obtain ⟨s, hs⟩ := h.exists_slot hsize hv
    have hlit := h.wellFormed.literal_var hs
    have hmodel := h.wellFormed.holds_model (Trail.value_of_slot hs hlit)
    rw [Literal.Holds, hlit] at hmodel
    have hpos : s.literal.positive = true := by
      cases hp : s.literal.positive with
      | true => rfl
      | false =>
        have := h.holds_of_smaller hordered hb hs hp hsmaller
        rw [Literal.Holds, hlit] at this
        exact absurd (this.trans hmodel.symm) hdiffers
    rw [hpos] at hmodel
    refine .inr ⟨v, hv, hsmaller, hmodel, ?_⟩
    rw [hmodel] at hdiffers
    simpa using hdiffers

end Engine.Running

/-- A transition keeps the trail ordered if decisions make the smallest unassigned variable true. -/
theorem Engine.Move.ordered {σ : Type} {f : Formula} {config : Config} {policy : Policy σ}
    {e e' : Engine σ} {s s' : State} (h : e.Running f config policy) (hm : e.Move s e' s')
    (hordered : e.trail.Ordered)
    (hchoice : s = .deciding →
      ∀ l memory, e.policy.choose e.memory e.trail e.vars = (some l, memory) →
        l.positive = true ∧ ∀ w ∈ f.vars, w.id < l.var.id → ∃ s, e.trail.slot w = some s) :
    e'.trail.Ordered := by
  cases hm with
  | propagate hq => exact hordered.continues (hq.derives.continues h.wellFormed)
  | stop => exact hordered
  | fault => exact hordered
  | decide hm ht =>
    obtain ⟨hpos, hsmaller⟩ := hchoice rfl _ _ hm
    exact hordered.decision h.wellFormed ht hpos fun w hw => hsmaller w (h.mem_trail_vars.mp hw)
  | refute => exact hordered
  | learn hc hf hl => exact (hordered.backtrack h.wellFormed _).continues (hl.trail_spec h).1

namespace Session

variable {f : Formula} {config : Config} {x : Session Bool}

/-- With positive decisions the trail is ordered at any time. -/
theorem Reached.ordered (hphase : config.phase = .positive)
    (h : Reached f config config.phase.policy false x) : x.engine.trail.Ordered := by
  have key : Reached f config config.phase.policy false x ∧ x.engine.trail.Ordered := by
    refine h.induct (P := fun x => Reached f config config.phase.policy false x ∧
      x.engine.trail.Ordered) ⟨.refl, .of_no_slots (Trail.slot_empty _)⟩ ?_
    rintro y z ⟨hy, hordered⟩ hn
    refine ⟨hy.tail hn, ?_⟩
    cases hn with
    | start hr =>
      obtain ⟨w, -, rfl⟩ := Engine.Sound.restart_eq hy.invariant hr
      exact .of_no_slots (Trail.slot_empty _)
    | step hs hstep =>
      obtain ⟨hrunning, hstate⟩ := hy.invariant
      refine (hrunning.move hstate hs hstep).ordered hrunning hordered ?_
      rintro rfl l memory hm
      obtain ⟨v, -, rfl, -, hsmaller⟩ := hy.choose_positive hphase hm
      exact ⟨rfl, hsmaller⟩
    | @finish e s hs => cases s <;> exact hordered
  exact key.2

/-- With positive decisions an engine that answers `sat` holds the first model on its trail. -/
theorem firstModel_of_sat {e : Engine Bool} (hphase : config.phase = .positive)
    (h : Reached f config config.phase.policy false ⟨e, none⟩) (hsat : e.solve.1 = .sat) :
    FirstModel f e.solve.2.trail.model ∧ ∀ l, l ∈ e.solve.2.trail.assigned ↔
      l.var ∈ f.vars ∧ l.Holds e.solve.2.trail.model := by
  obtain ⟨e', s, hsolve, h', hs⟩ := exists_solve h
  rw [hsolve] at hsat ⊢
  rcases hs with rfl | rfl | ⟨x, rfl⟩
  · obtain ⟨hrunning, hstate⟩ := h'.invariant
    have hsize := ((reliable_phase f config).final h').2 rfl
    exact ⟨hrunning.firstModel hsize hstate (h'.ordered hphase), fun l =>
      hrunning.mem_assigned_iff hsize⟩
  · cases hsat
  · cases hsat

/-- With positive decisions, every engine for a satisfiable formula ends with the first model on its
trail, whatever its mode of propagation and its order of resolution, and however often it was run
before. -/
theorem solve_firstModel (hsat : Satisfiable f) : ∃ a, FirstModel f a ∧
    ∀ config : Config, config.phase = .positive →
      ∀ e, Reached f config config.phase.policy false ⟨e, none⟩ →
        e.solve.1 = .sat ∧ ∀ l, l ∈ e.solve.2.trail.assigned ↔ l.var ∈ f.vars ∧ l.Holds a := by
  have hsolve : ∀ {config : Config} {e}, Reached f config config.phase.policy false ⟨e, none⟩ →
      e.solve.1 = .sat := fun h => (reliable_phase f _).solve_eq_sat h hsat
  have hnew : Reached f {} (Phase.policy (Config.phase {})) false ⟨.ofFormula f {}, none⟩ := .refl
  obtain ⟨hfirst, -⟩ := firstModel_of_sat rfl hnew (hsolve hnew)
  refine ⟨_, hfirst, fun config hphase e h => ⟨hsolve h, fun l => ?_⟩⟩
  obtain ⟨hfirst', hmem⟩ := firstModel_of_sat hphase h (hsolve h)
  rw [hmem]
  refine and_congr_right fun hv => ?_
  rw [Literal.Holds, Literal.Holds, hfirst'.eq hfirst hv]

/-- The first model of `notFirst` makes `x1` false and `x2` true; here a scanning engine finds it.
-/
theorem notFirst_firstModel : ∃ a, FirstModel notFirst a ∧ a 1 = false ∧ a 2 = true := by
  have hsat : Satisfiable notFirst := by
    refine ⟨fun _ => false, fun c hc => ⟨⟨⟨1, Nat.one_pos⟩, false⟩, ?_, rfl⟩⟩
    rw [notFirst, List.mem_cons, List.mem_singleton] at hc
    rcases hc with rfl | rfl <;> rw [Clause.mem_ofList] <;> exact List.mem_cons_self
  obtain ⟨a, ha, hmodel⟩ := solve_firstModel hsat
  obtain ⟨-, hmem⟩ := hmodel { propagation := .fullScan, resolution := .largestVariable } rfl
    (.ofFormula notFirst _) .refl
  refine ⟨a, ha, ((hmem ⟨⟨1, Nat.one_pos⟩, false⟩).mp ?_).2,
    ((hmem ⟨⟨2, Nat.two_pos⟩, true⟩).mp ?_).2⟩
  · decide +kernel
  · decide +kernel

end Session

end ClauseLearning
