import ClauseLearning.Proofs.Engine.Termination

/-!
# The answers of an engine

* `Trail.model`: the assignment that a trail stands for.
* `Running.satisfies_model`: a run that ends as satisfied with every variable assigned has found a
  model.
* `Session.solve_ofFormula`: the answer of a new engine that decides by the configured phase.
* `Session.solve_decides`: the answers of an engine are right, and with a reliable policy it always
  answers.
-/

namespace ClauseLearning

/-! ## The model of a trail -/

namespace Trail

variable {t : Trail} {l : Literal} {c : Clause}

/-- A variable is true if the trail makes it so. -/
def model (t : Trail) : Assignment := fun n =>
  t.assigned.toList.any fun l => l.var.id == n && l.positive

/-- The true literals of the trail hold in its model. -/
theorem WellFormed.holds_model (h : t.WellFormed) (hl : t.value l = some true) :
    l.Holds t.model := by
  obtain ⟨s, hs, hlit⟩ := value_eq_true_iff.mp hl
  have hmem : ∀ {m}, m ∈ t.assigned.toList → m.var = l.var → m = l := by
    intro m hm hv
    obtain ⟨p, hp⟩ := Array.mem_iff_getElem?.mp (Array.mem_toList_iff.mp hm)
    obtain ⟨s', hs', hlit', -⟩ := h.assigned_iff.mp hp
    rw [hv, hs] at hs'
    rw [← hlit', ← Option.some.inj hs', hlit]
  have hassigned : l ∈ t.assigned.toList :=
    Array.mem_toList_iff.mpr (Array.mem_of_getElem? (h.assigned_iff.mpr ⟨s, hs, hlit, rfl⟩))
  show t.model l.var.id = l.positive
  cases hp : l.positive with
  | true => exact List.any_eq_true.mpr ⟨l, hassigned, by simp [hp]⟩
  | false =>
    refine List.any_eq_false.mpr fun m hm => ?_
    rw [Bool.and_eq_true, beq_iff_eq]
    rintro ⟨hid, hpos⟩
    rw [hmem hm (Var.ext_id hid), hp] at hpos
    cases hpos

/-- A settled clause over assigned variables is true. -/
theorem Settles.exists_true (hc : t.Settles c) (hall : ∀ l ∈ c, ∃ s, t.slot l.var = some s) :
    ∃ l ∈ c, t.value l = some true := by
  rcases hc with h | ⟨l, hl, -, -, -, hnone, -⟩
  · exact h
  · obtain ⟨s, hs⟩ := hall l hl
    rw [value_eq_none_iff.mp hnone] at hs
    cases hs

end Trail

namespace Engine.Running

variable {σ : Type} {f : Formula} {config : Config} {policy : Policy σ} {e : Engine σ}

section Total

variable (h : e.Running f config policy) (hsize : e.trail.size = e.vars.size)

include h hsize

/-- A trail as long as the list of variables assigns every variable of the formula. -/
theorem exists_slot {v : Var} (hv : v ∈ f.vars) : ∃ s, e.trail.slot v = some s := by
  rw [h.vars, ← h.trail_vars] at hsize
  exact h.wellFormed.size_eq_iff.mp hsize v (h.mem_trail_vars.mpr hv)

variable (hs : e.InState f .satisfied)

include hs

/-- Every clause of the store has a true literal. -/
theorem exists_true {c : Clause} (hc : c ∈ e.store.clauses) :
    ∃ l ∈ c, e.trail.value l = some true := by
  refine (hs c hc).exists_true fun l hl => h.exists_slot hsize ?_
  exact List.mem_toArray.mp (h.store.overVars c hc l hl)

theorem satisfies_model : Satisfies e.trail.model f := by
  intro c hc
  have hmem : c ∈ e.store.clauses := by
    rw [← Array.mem_toList_iff, h.store.clauses]
    exact List.mem_append_left _ hc
  obtain ⟨l, hl, hv⟩ := h.exists_true hsize hs hmem
  exact ⟨l, hl, h.wellFormed.holds_model hv⟩

end Total

end Engine.Running

/-! ## Answers -/

namespace Session

variable {σ : Type}

/-- With a reliable policy the answer for a satisfiable formula is `sat`. -/
theorem Reliable.solve_eq_sat {f : Formula} {config : Config} {policy : Policy σ} {memory : σ}
    {e : Engine σ} (hp : Reliable f config policy memory)
    (h : Reached f config policy memory ⟨e, none⟩) (hsat : Satisfiable f) : e.solve.1 = .sat := by
  obtain ⟨e', s, hsolve, h', hs⟩ := exists_solve h
  rw [hsolve]
  rcases hs with rfl | rfl | ⟨x, rfl⟩
  · rfl
  · exact absurd hsat h'.invariant.2.2
  · exact absurd rfl ((hp.final h').1 x)

/-- An engine that decides by the configured phase gives an answer, and it is right. -/
theorem solve_ofFormula (f : Formula) (config : Config) :
    (Engine.ofFormula f config).solve.1 = .sat ∧ Satisfiable f ∨
      (Engine.ofFormula f config).solve.1 = .unsat ∧ ¬Satisfiable f := by
  have hp := reliable_phase f config
  have h : Reached f config config.phase.policy false ⟨Engine.ofFormula f config, none⟩ := .refl
  obtain ⟨e', s, hsolve, h', hs⟩ := exists_solve h
  obtain ⟨hrunning, hstate⟩ := h'.invariant
  rw [hsolve]
  rcases hs with rfl | rfl | ⟨x, rfl⟩
  · exact .inl ⟨rfl, _, hrunning.satisfies_model ((hp.final h').2 rfl) hstate⟩
  · exact .inr ⟨rfl, hstate.2⟩
  · exact absurd rfl ((hp.final h').1 x)

/-- An engine that answers `unsat` is right, whatever the policy. With a reliable policy, such as
those of both phases, it answers `sat` exactly for satisfiable formulas; then it has assigned every
variable and made every clause of its store true. When it answers `unsat` it is at the root level.
-/
theorem solve_decides (f : Formula) (config : Config) :
    Reliable f config config.phase.policy false ∧
      ∀ (policy : Policy σ) (memory : σ) (e : Engine σ), Reached f config policy memory ⟨e, none⟩ →
        (e.solve.1 = .unsat → ¬Satisfiable f) ∧
        (Reliable f config policy memory →
          (e.solve.1 = .sat ↔ Satisfiable f) ∧ (e.solve.1 = .unsat ↔ ¬Satisfiable f) ∧
          (e.solve.1 = .sat → (∀ v ∈ f.vars, e.solve.2.trail.isAssigned v = true) ∧
            ∀ c ∈ e.solve.2.store.clauses, ∃ l ∈ c, e.solve.2.trail.value l = some true) ∧
          (e.solve.1 = .unsat → e.solve.2.trail.level = 0)) := by
  refine ⟨reliable_phase f config, fun policy memory e h => ?_⟩
  obtain ⟨e', s, hsolve, h', hs⟩ := exists_solve h
  obtain ⟨hrunning, hstate⟩ := h'.invariant
  rw [hsolve]
  rcases hs with rfl | rfl | ⟨x, rfl⟩
  · refine ⟨by simp [verdict], fun hp => ?_⟩
    have hsize := (hp.final h').2 rfl
    have hsat : Satisfiable f := ⟨_, hrunning.satisfies_model hsize hstate⟩
    refine ⟨by simp [verdict, hsat], by simp [verdict, hsat],
      fun _ => ⟨fun v hv => ?_, fun c hc => ?_⟩, by simp [verdict]⟩
    · exact Trail.isAssigned_iff.mpr (hrunning.exists_slot hsize hv)
    · exact hrunning.exists_true hsize hstate hc
  · obtain ⟨hlevel, hunsat⟩ := hstate
    exact ⟨fun _ => hunsat, fun _ => ⟨by simp [verdict, hunsat], by simp [verdict, hunsat],
      by simp [verdict], fun _ => hlevel⟩⟩
  · exact ⟨by simp [verdict], fun hp => absurd rfl ((hp.final h').1 x)⟩

/-- Engines decide `notFirst` and, even without any decision, refute it together with `x1`. -/
theorem notFirst_decided : Satisfiable notFirst ∧
    ¬Satisfiable (.ofLiteral ⟨⟨1, Nat.one_pos⟩, true⟩ :: notFirst) := by
  obtain ⟨hreliable, hdecides⟩ := solve_decides notFirst {}
  obtain ⟨-, hrefutes⟩ := solve_decides (.ofLiteral ⟨⟨1, Nat.one_pos⟩, true⟩ :: notFirst) {}
  exact ⟨((hdecides _ _ (Engine.ofFormula notFirst {}) .refl).2 hreliable).1.mp (by decide +kernel),
    (hrefutes .stopping () (.withPolicy _ {} .stopping ()) .refl).1 (by decide +kernel)⟩

end Session

end ClauseLearning
