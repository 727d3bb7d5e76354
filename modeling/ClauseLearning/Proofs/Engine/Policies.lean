import ClauseLearning.Proofs.Engine.Invariant

/-!
# Reliable policies

A policy is reliable if it always answers with a literal that can be decided. The runs of an engine
with such a policy end with a total assignment or with a refutation, and never with a fault.

* `Policy.firstUnassigned_spec`: the smallest unassigned variable.
* `Session.reliable_phase`: the policies of both phases are reliable.
* `Reliable.final`: the final states that a reliable policy leads to.
-/

namespace ClauseLearning

variable {σ : Type} {f : Formula} {config : Config} {policy : Policy σ} {memory : σ}

/-- The smallest unassigned variable exists unless every variable is assigned. -/
theorem Policy.firstUnassigned_spec {t : Trail} (hw : t.WellFormed) (hsize : t.size ≠ t.vars.size) :
    ∃ v, firstUnassigned t t.vars = some v ∧ v ∈ t.vars ∧ t.slot v = none ∧
      ∀ w ∈ t.vars, w.id < v.id → ∃ s, t.slot w = some s := by
  obtain ⟨u, hu, hnone⟩ : ∃ u ∈ t.vars, t.slot u = none := by
    apply Classical.byContradiction
    intro hall
    refine hsize (hw.size_eq_iff.mpr fun v hv => Option.ne_none_iff_exists'.mp fun hnone => ?_)
    exact hall ⟨v, hv, hnone⟩
  have hfree : ∀ {v}, (!t.isAssigned v) = true ↔ t.slot v = none := by
    intro v
    rw [Bool.not_eq_true', Trail.isAssigned_eq_false_iff]
  rw [firstUnassigned, ← Array.find?_toList]
  cases hfind : t.vars.toList.find? fun v => !t.isAssigned v with
  | none =>
    exact absurd (hfree.mpr hnone) (List.find?_eq_none.mp hfind u (Array.mem_toList_iff.mpr hu))
  | some v =>
    obtain ⟨hv, before, after, hlist, hbefore⟩ := List.find?_eq_some_iff_append.mp hfind
    refine ⟨v, rfl, Array.mem_toList_iff.mp (List.mem_of_find?_eq_some hfind), hfree.mp hv,
      fun w hw' hlt => ?_⟩
    have hsorted := hw.sorted
    rw [hlist, Ascending.Sorted, List.pairwise_append, List.pairwise_cons] at hsorted
    rw [← Array.mem_toList_iff, hlist, List.mem_append, List.mem_cons] at hw'
    rcases hw' with hw' | rfl | hw'
    · have := hbefore w hw'
      rw [Bool.not_not] at this
      exact Trail.isAssigned_iff.mp this
    · exact absurd hlt (Nat.lt_irrefl _)
    · have := hsorted.2.1.1 w hw'
      omega

namespace Session

variable {e : Engine σ} {s : State}

/-- Whenever the policy is asked, it answers with a literal of an unassigned variable of the
formula. -/
def Reliable (f : Formula) (config : Config) (policy : Policy σ) (memory : σ) : Prop :=
  ∀ ⦃e⦄, Reached f config policy memory ⟨e, some .deciding⟩ →
    ∃ l, (policy.choose e.memory e.trail e.vars).1 = some l ∧ l.var ∈ f.vars ∧
      e.trail.isAssigned l.var = false

/-- When a decision is asked for, some variable is unassigned. -/
theorem Reached.exists_unassigned (h : Reached f config policy memory ⟨e, some .deciding⟩) :
    ∃ v, Policy.firstUnassigned e.trail e.vars = some v ∧ v ∈ f.vars ∧ e.trail.slot v = none ∧
      ∀ w ∈ f.vars, w.id < v.id → ∃ s, e.trail.slot w = some s := by
  obtain ⟨hrunning, -, hsize, -⟩ := h.invariant
  have hvars : e.vars = e.trail.vars := hrunning.vars.trans hrunning.trail_vars.symm
  rw [hvars] at hsize ⊢
  obtain ⟨v, hv, hmem, hspec⟩ := Policy.firstUnassigned_spec hrunning.wellFormed hsize
  simp only [hrunning.mem_trail_vars] at hmem hspec
  exact ⟨v, hv, hmem, hspec⟩

/-- The policies of both phases are reliable. -/
theorem reliable_phase (f : Formula) (config : Config) :
    Reliable f config config.phase.policy false := by
  intro e h
  obtain ⟨v, hv, hmem, hfree, -⟩ := h.exists_unassigned
  have hfree := Trail.isAssigned_eq_false_iff.mpr hfree
  cases config.phase with
  | positive => exact ⟨⟨v, true⟩, by simp [Phase.policy, Policy.positiveFirst, hv], hmem, hfree⟩
  | alternating =>
    exact ⟨⟨v, !e.memory⟩, by simp [Phase.policy, Policy.alternating, hv], hmem, hfree⟩

/-- With positive decisions the policy makes the smallest unassigned variable true. -/
theorem Reached.choose_positive {e : Engine Bool} (hphase : config.phase = .positive)
    (h : Reached f config config.phase.policy false ⟨e, some .deciding⟩) {l : Literal}
    {memory : Bool} (hm : e.policy.choose e.memory e.trail e.vars = (some l, memory)) :
    ∃ v ∈ f.vars, l = ⟨v, true⟩ ∧ e.trail.slot v = none ∧
      ∀ w ∈ f.vars, w.id < v.id → ∃ s, e.trail.slot w = some s := by
  obtain ⟨v, hv, hmem, hfree, hsmaller⟩ := h.exists_unassigned
  rw [h.invariant.1.policy, hphase] at hm
  simp only [Phase.policy, Policy.positiveFirst, hv, Option.map_some, Prod.mk.injEq,
    Option.some.injEq] at hm
  exact ⟨v, hmem, hm.1.symm, hfree, hsmaller⟩

/-- The last event before a state of a run was the start or a transition. -/
theorem Reached.cases_run (h : Reached f config policy memory ⟨e, some s⟩) :
    s = .propagating ∨ ∃ e' s', Reached f config policy memory ⟨e', some s'⟩ ∧
      s'.isFinal = false ∧ e'.step s' = (e, s) := by
  rcases Relation.ReflTransGen.cases_tail h with heq | ⟨x, hx, hn⟩
  · cases heq
  · cases hn with
    | start hr => exact .inl rfl
    | step hs hstep => exact .inr ⟨_, _, hx, hs, hstep⟩

/-- With a reliable policy no run faults, and a run ends as satisfied only with every variable
assigned. -/
theorem Reliable.final (hp : Reliable f config policy memory)
    (h : Reached f config policy memory ⟨e, some s⟩) :
    (∀ x, s ≠ .faulted x) ∧ (s = .satisfied → e.trail.size = e.vars.size) := by
  rcases h.cases_run with rfl | ⟨e', s', h', hfinal, hstep⟩
  · exact ⟨by simp, by simp⟩
  obtain ⟨hrunning, hs'⟩ := h'.invariant
  cases hrunning.move hs' hfinal hstep with
  | @propagate o q =>
    cases o with
    | some r => exact ⟨by simp [Engine.afterPropagation], by simp [Engine.afterPropagation]⟩
    | none =>
      simp only [Engine.afterPropagation]
      split
      · next hsize => exact ⟨by simp, fun _ => hsize⟩
      · exact ⟨by simp, by simp⟩
  | stop hm =>
    obtain ⟨l, hl, -⟩ := hp h'
    rw [← hrunning.policy, hm] at hl
    cases hl
  | fault hm hx =>
    obtain ⟨l, hl, hmem, hfree⟩ := hp h'
    rw [← hrunning.policy, hm] at hl
    cases hl
    obtain ⟨t, ht⟩ := Trail.exists_pushDecision hrunning.wellFormed.sorted
      (hrunning.mem_trail_vars.mpr hmem) (Trail.isAssigned_eq_false_iff.mp hfree)
    rw [ht] at hx
    cases hx
  | decide => exact ⟨by simp, by simp⟩
  | refute => exact ⟨by simp, by simp⟩
  | learn => exact ⟨by simp, by simp⟩

end Session

end ClauseLearning
