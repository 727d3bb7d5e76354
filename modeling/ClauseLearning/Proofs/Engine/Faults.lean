import ClauseLearning.Proofs.Engine.Implications
import ClauseLearning.Proofs.Engine.Termination
import ClauseLearning.Proofs.Outcomes

/-!
# Faults of a run

A run faults at a decision and nowhere else: when the policy answers with a literal that cannot be
assigned. Restarts, propagation, the analysis of conflicts and learning never do, and the lookups
that are made without a check find what they look for.

* `Trail.pushDecision_eq_error_iff`: the two ways in which a trail rejects a decision.
* `Engine.RunsTo`: the states that a call of `Engine.solve` comes to.
* `Session.solve_eq_faulted_iff`: the calls that fault. `Session.solve_faults`: with the rest of a
  session.
-/

namespace ClauseLearning

namespace Trail

variable {store : ClauseStore} {t : Trail} {l : Literal} {x : Fault}

/-- What is wrong with a decision: its variable is none of the trail, or it is assigned. -/
inductive Rejects (t : Trail) (l : Literal) : Fault → Prop
  | notVariable (h : l.var ∉ t.vars) : Rejects t l (.notVariable l.var)
  | alreadyAssigned (h : t.isAssigned l.var = true) : Rejects t l (.alreadyAssigned l.var)

theorem pushDecision_eq_error_iff (hw : t.WellFormed) :
    t.pushDecision l = .error x ↔ t.Rejects l x := by
  have hindex : ∀ starts : Array Nat, { t with starts }.index l.var = t.index l.var := fun _ => rfl
  simp only [pushDecision, push, hindex]
  constructor
  · intro h
    split at h
    · next hnone =>
      cases h
      refine .notVariable fun hv => ?_
      obtain ⟨i, hi⟩ := exists_index hw.sorted hv
      rw [hnone] at hi
      cases hi
    · next i hi =>
      split at h
      · next hsome =>
        cases h
        refine .alreadyAssigned ?_
        simpa [isAssigned, slot, hi] using hsome
      · cases h
  · rintro (hv | hassigned)
    · cases hi : t.index l.var with
      | none => rfl
      | some i => exact absurd (mem_vars_of_index hi) hv
    · obtain ⟨s, hs⟩ := isAssigned_iff.mp hassigned
      obtain ⟨i, hi, hslot⟩ := Option.bind_eq_some_iff.mp hs
      simp [hi, hslot]

/-- The lookups of a trail that are made without a check stay within their arrays, and the trail can
be printed. -/
structure InRange (store : ClauseStore) (t : Trail) : Prop where
  index_lt : ∀ v i, t.index v = some i → i < t.slots.size
  start_lt : ∀ (k q : Nat), t.starts[k]? = some q → q < t.assigned.size
  assigned : ∀ l ∈ t.assigned, ∃ s, t.slot l.var = some s ∧ s.literal = l
  table : ∃ text, t.table store = .ok text

theorem exists_row {s : Slot} {v : Var} (hj : t.Justified store) (hs : t.slot v = some s) :
    ∃ text, t.row store s = .ok text := by
  obtain ⟨reason, hreason⟩ : ∃ text, reasonText store s.reason = .ok text := by
    cases hr : s.reason with
    | decision => exact ⟨_, rfl⟩
    | clause r =>
      obtain ⟨c, hc, -⟩ := hj hs hr
      refine ⟨c.text, ?_⟩
      rw [reasonText, ClauseStore.fetch_eq_ok hc]
      rfl
  simp only [row, hreason]
  exact ⟨_, rfl⟩

theorem WellFormed.inRange (hw : t.WellFormed) (hj : t.Justified store) : t.InRange store where
  index_lt v i hi := by
    rw [hw.slots_size]
    exact index_lt hw.sorted hi
  start_lt k q hq := hw.start_lt hq
  assigned l hl := by
    obtain ⟨p, hp⟩ := Array.mem_iff_getElem?.mp hl
    obtain ⟨s, hs, hlit, -⟩ := hw.assigned_iff.mp hp
    exact ⟨s, hs, hlit⟩
  table := by
    have hrow : ∀ s ∈ t.assigned.toList.filterMap fun l => t.slot l.var,
        ∃ row, t.row store s = .ok row := by
      intro s hs
      obtain ⟨l, -, hs⟩ := List.mem_filterMap.mp hs
      exact exists_row hj hs
    obtain ⟨rows, hrows⟩ := exists_mapM hrow
    simp only [Trail.table, hrows]
    exact ⟨_, rfl⟩

end Trail

namespace Engine

variable {σ : Type} {f : Formula} {config : Config} {policy : Policy σ} {memory : σ}
  {e e' : Engine σ} {s s' : State} {l : Literal} {x : Fault}

/-! ## The course of one run -/

/-- One transition of a run. -/
def Advances (x y : Engine σ × State) : Prop := x.2.isFinal = false ∧ x.1.step x.2 = y

/-- A call of `solve` restarts the engine and comes to `e'` in state `s`. -/
def RunsTo (e e' : Engine σ) (s : State) : Prop :=
  ∃ e₀, e.restart = .ok e₀ ∧ Relation.ReflTransGen Advances (e₀, .propagating) (e', s)

theorem RunsTo.step (h : e.RunsTo e' s) (hs : s.isFinal = false) :
    e.RunsTo (e'.step s).1 (e'.step s).2 := by
  obtain ⟨e₀, hr, hrun⟩ := h
  exact ⟨e₀, hr, hrun.tail ⟨hs, rfl⟩⟩

/-- Nothing follows a final state. -/
private theorem eq_of_isFinal {x y : Engine σ × State} (hx : x.2.isFinal = true)
    (h : Relation.ReflTransGen Advances x y) : x = y := by
  rcases h.cases_head with heq | ⟨z, ⟨hfinal, -⟩, -⟩
  · exact heq
  · rw [hx] at hfinal
    cases hfinal

/-- A call comes to one final state only. -/
theorem RunsTo.unique {e₁ e₂ : Engine σ} {s₁ s₂ : State} (h₁ : e.RunsTo e₁ s₁)
    (h₂ : e.RunsTo e₂ s₂) (hs₁ : s₁.isFinal = true) (hs₂ : s₂.isFinal = true) :
    e₁ = e₂ ∧ s₁ = s₂ := by
  obtain ⟨e₀, hr, hrun⟩ := h₁
  obtain ⟨e₀', hr', hrun'⟩ := h₂
  obtain rfl := Except.ok.inj (hr.symm.trans hr')
  have hunique : Relator.RightUnique (Advances (σ := σ)) := fun _ _ _ hy hz =>
    hy.2.symm.trans hz.2
  rcases Relation.ReflTransGen.total_of_right_unique hunique hrun hrun' with h | h
  · exact Prod.mk.inj (eq_of_isFinal hs₁ h)
  · exact Prod.mk.inj (eq_of_isFinal hs₂ h).symm

/-! ## Transitions that fault -/

/-- The one move that faults is a decision that the trail rejects. -/
theorem Move.cases_faulted (hw : e.trail.WellFormed) (hm : e.Move s e' (.faulted x)) :
    s = .deciding ∧ ∃ l memory, e.policy.choose e.memory e.trail e.vars = (some l, memory) ∧
      e.trail.Rejects l x ∧ e' = { e with memory, stats := e.countDecision } := by
  generalize hs' : State.faulted x = s' at hm
  cases hm with
  | @propagate o q =>
    cases o with
    | some r => cases hs'
    | none =>
      simp only [afterPropagation] at hs'
      split at hs' <;> cases hs'
  | fault hm hx =>
    cases hs'
    exact ⟨rfl, _, _, hm, (Trail.pushDecision_eq_error_iff hw).mp hx, rfl⟩
  | stop => cases hs'
  | decide => cases hs'
  | refute => cases hs'
  | learn => cases hs'

/-- A decision that the trail rejects ends the run. -/
theorem step_of_rejects (hw : e.trail.WellFormed)
    (hm : e.policy.choose e.memory e.trail e.vars = (some l, memory)) (hx : e.trail.Rejects l x) :
    e.step .deciding = ({ e with memory, stats := e.countDecision }, .faulted x) := by
  simp only [Engine.step, transition, decideNext, hm, (Trail.pushDecision_eq_error_iff hw).mpr hx]
  rfl

theorem transition_of_isFinal (hs : s.isFinal = true) : e.transition s = .ok (e, s) := by
  cases s <;> first | rfl | cases hs

/-- No transition of a run breaks off. A rejected decision is no exception: it leads to a final
state. -/
theorem Running.exists_transition (h : e.Running f config policy) (hs : e.InState f s) :
    ∃ next, e.transition s = .ok next := by
  cases htransition : e.transition s with
  | ok next => exact ⟨next, rfl⟩
  | error x =>
    have hstep : e.step s = (e, .faulted x) := by simp only [Engine.step, htransition]
    cases hfinal : s.isFinal with
    | false =>
      obtain ⟨rfl, -⟩ := (h.move hs hfinal hstep).cases_faulted h.wellFormed
      cases htransition
    | true =>
      rw [transition_of_isFinal hfinal] at htransition
      cases htransition

end Engine

namespace Session

variable {σ : Type} {f : Formula} {config : Config} {policy : Policy σ} {memory : σ}
  {e e' e₁ : Engine σ} {s : State} {x : Fault}

theorem Reached.runsTo (h : Reached f config policy memory ⟨e, none⟩) (hruns : e.RunsTo e' s) :
    Reached f config policy memory ⟨e', some s⟩ := by
  obtain ⟨e₀, hr, hrun⟩ := hruns
  have key : ∀ {y : Engine σ × State},
      Relation.ReflTransGen Engine.Advances (e₀, .propagating) y →
        Reached f config policy memory ⟨y.1, some y.2⟩ := by
    intro y hy
    induction hy with
    | refl => exact h.tail (.start hr)
    | tail _ hstep ih =>
      obtain ⟨hfinal, rfl⟩ := hstep
      exact ih.tail (.step hfinal rfl)
  exact key hrun

/-- A call faults where its run does. -/
theorem Reached.solve_eq_faulted (h : Reached f config policy memory ⟨e, none⟩) :
    e.solve = (.faulted x, e₁) ↔ e.RunsTo e₁ (.faulted x) := by
  obtain ⟨e₀, e', s, hr, hrun, hsolve, hfinal, hne⟩ := exists_run h
  have hruns : e.RunsTo e' s := (run_induct (P := fun e' s => e.RunsTo e' s) hrun hne
    ⟨_, hr, .refl⟩ fun hs h => h.step hs).1
  rw [hsolve]
  constructor
  · intro heq
    obtain ⟨hverdict, rfl⟩ := Prod.mk.inj heq
    cases s <;> cases hverdict
    exact hruns
  · intro h'
    obtain ⟨rfl, rfl⟩ := hruns.unique h' hfinal rfl
    rfl

/-- A call faults exactly if it asks for a decision and is answered with a literal that the trail
rejects. It ends there, with the decision counted. -/
theorem Reached.solve_eq_faulted_iff (h : Reached f config policy memory ⟨e, none⟩) :
    e.solve = (.faulted x, e₁) ↔ ∃ e' l m, e.RunsTo e' .deciding ∧
      policy.choose e'.memory e'.trail e'.vars = (some l, m) ∧ e'.trail.Rejects l x ∧
      e₁ = { e' with memory := m, stats := e'.countDecision } := by
  rw [h.solve_eq_faulted]
  constructor
  · rintro ⟨e₀, hr, hrun⟩
    rcases hrun.cases_tail with heq | ⟨⟨e', s⟩, hrun', hfinal, hstep⟩
    · cases heq
    · have hruns : e.RunsTo e' s := ⟨e₀, hr, hrun'⟩
      obtain ⟨hrunning, hs⟩ := (h.runsTo hruns).invariant
      obtain ⟨rfl, l, m, hm, hx, he₁⟩ :=
        (hrunning.move hs hfinal hstep).cases_faulted hrunning.wellFormed
      exact ⟨e', l, m, hruns, hrunning.policy ▸ hm, hx, he₁⟩
  · rintro ⟨e', l, m, hruns, hm, hx, rfl⟩
    obtain ⟨hrunning, -⟩ := (h.runsTo hruns).invariant
    have hstep := Engine.step_of_rejects hrunning.wellFormed (hrunning.policy ▸ hm) hx
    have := hruns.step rfl
    rwa [hstep] at this

theorem Reached.sound {y : Session σ} (h : Reached f config policy memory y) :
    y.engine.Sound f config policy := by
  obtain ⟨e, _ | s⟩ := y
  · exact h.invariant
  · exact h.invariant.1.toSound

/-- A call of `solve` faults exactly if some call of the policy answers with a literal whose variable
is none of the formula or is assigned, and it says so at that decision. Nothing else in a session
can fail: the variables of a new engine are ascending, a run can start, no transition breaks off, no
unchecked lookup of a trail that a run passes is out of range, and propagation does not shorten the
trail. With the policies of both phases no call faults. -/
theorem solve_faults (f : Formula) (config : Config) (policy : Policy σ) (memory : σ) :
    (∀ e, Reached f config policy memory ⟨e, none⟩ → ∀ x e₁, e.solve = (.faulted x, e₁) ↔
      ∃ e' l m, e.RunsTo e' .deciding ∧
        policy.choose e'.memory e'.trail e'.vars = (some l, m) ∧
        (l.var ∉ f.vars ∧ x = .notVariable l.var ∧
            x.message = "x" ++ toString l.var.id ++ " is not a variable of the formula" ∨
          e'.trail.isAssigned l.var = true ∧ x = .alreadyAssigned l.var ∧
            x.message = "x" ++ toString l.var.id ++ " is already assigned") ∧
        e₁ = { e' with memory := m, stats := e'.countDecision }) ∧
    Trail.ofVariables (ClauseStore.ofFormula f).vars =
      .ok (Engine.withPolicy f config policy memory).trail ∧
    (∀ e, Reached f config policy memory ⟨e, none⟩ → ∃ e', e.restart = .ok e') ∧
    (∀ e s, Reached f config policy memory ⟨e, some s⟩ → ∃ next, e.transition s = .ok next) ∧
    (∀ y t, Reached f config policy memory y → y.Passes t →
      t.InRange y.engine.store ∧ y.engine.store.formulaSize ≤ y.engine.store.size) ∧
    (∀ e o q, Reached f config policy memory ⟨e, some .propagating⟩ →
      e.propagateClauses = .ok (o, q) → e.trail.size ≤ q.trail.size) ∧
    ∀ e, Reached f config config.phase.policy false ⟨e, none⟩ → ∀ x, e.solve.1 ≠ .faulted x := by
  refine ⟨fun e h x e₁ => ?_, if_pos (ClauseStore.sorted_vars _), fun e h => ?_, fun e s h => ?_,
    fun y t h ht => ?_, fun e o q h hq => ?_, fun e h x hx => ?_⟩
  · rw [h.solve_eq_faulted_iff]
    constructor
    · rintro ⟨e', l, m, hruns, hm, hx, he₁⟩
      refine ⟨e', l, m, hruns, hm, ?_, he₁⟩
      rcases hx with hv | hassigned
      · exact .inl ⟨fun hmem => hv ((h.runsTo hruns).sound.mem_trail_vars.mpr hmem), rfl, rfl⟩
      · exact .inr ⟨hassigned, rfl, rfl⟩
    · rintro ⟨e', l, m, hruns, hm, ⟨hv, rfl, -⟩ | ⟨hassigned, rfl, -⟩, he₁⟩
      · exact ⟨e', l, m, hruns, hm,
          .notVariable fun hmem => hv ((h.runsTo hruns).sound.mem_trail_vars.mp hmem), he₁⟩
      · exact ⟨e', l, m, hruns, hm, .alreadyAssigned hassigned, he₁⟩
  · obtain ⟨w, hr, -⟩ := Engine.exists_restart h.sound
    exact ⟨_, hr⟩
  · exact h.invariant.1.exists_transition h.invariant.2
  · obtain ⟨hw, hj, -⟩ := h.passes_spec ht
    exact ⟨hw.inRange hj, h.sound.store.formulaSize_le⟩
  · obtain ⟨o', q', hq', hprop, -⟩ := Engine.propagateClauses_spec h.invariant.1 h.invariant.2
    obtain ⟨-, rfl⟩ := Prod.mk.inj (Except.ok.inj (hq.symm.trans hq'))
    exact (hprop.derives.continues h.sound.wellFormed).size_le
  · obtain ⟨e', s, hsolve, h', hs⟩ := exists_solve h
    rw [hsolve] at hx
    rcases hs with rfl | rfl | ⟨y, rfl⟩
    · cases hx
    · cases hx
    · exact ((reliable_phase f config).final h').1 y rfl

/-- An engine for `notFirst` that insists on making `x1` true. -/
def insisting : Engine (List (Option Literal) × Unit) :=
  .withPolicy notFirst {} (.scripted false .stopping)
    (List.replicate 2 (some ⟨⟨1, Nat.one_pos⟩, true⟩), ())

/-- When its first decision has taught that `x1` is false, its second one is rejected. -/
theorem insisting_faults :
    insisting.solve.1 = .faulted (.alreadyAssigned ⟨1, Nat.one_pos⟩) ∧
      ∃ e' l m, insisting.RunsTo e' .deciding ∧
        insisting.policy.choose e'.memory e'.trail e'.vars = (some l, m) ∧
        e'.trail.isAssigned l.var = true ∧ insisting.solve.2.memory = m ∧
        "x" ++ toString l.var.id ++ " is already assigned" = "x1 is already assigned" := by
  have hverdict : insisting.solve.1 = .faulted (.alreadyAssigned ⟨1, Nat.one_pos⟩) := by
    decide +kernel
  obtain ⟨hfaults, -⟩ := solve_faults notFirst {} insisting.policy insisting.memory
  obtain ⟨e', l, m, hruns, hm, hx, he⟩ :=
    (hfaults insisting .refl _ _).mp (Prod.ext hverdict rfl)
  rcases hx with ⟨-, hx, -⟩ | ⟨hassigned, -, hmessage⟩
  · cases hx
  · exact ⟨hverdict, e', l, m, hruns, hm, hassigned, congrArg Engine.memory he, hmessage.symm⟩

end Session

end ClauseLearning
