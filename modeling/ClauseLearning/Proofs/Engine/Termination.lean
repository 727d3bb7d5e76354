import ClauseLearning.Proofs.Engine.Policies
import Mathlib.Logic.Function.Iterate

/-!
# Every run ends

The potential of a state (`Engine.potential`) goes down with every transition. Between two conflicts
it counts the variables that are not assigned; each conflict pays for this with the clause it
teaches, as only `3 ^ n` clauses can be learned.

* `Running.potential_step`: a transition lowers the potential.
* `Running.run_spec`: with enough steps a run reaches a final state, and does not give up.
* `Session.exists_solve`: what a call of `Engine.solve` comes to.
-/

namespace ClauseLearning

/-- What is left to do before the next conflict or the end, when `d` variables are not assigned. -/
def State.remaining (d : Nat) : State → Nat
  | .propagating => 2 * d + 3
  | .deciding => 2 * d + 2
  | .conflict _ => 1
  | _ => 0

/-- The final states are the answers, the faults and giving up. -/
theorem State.cases_of_isFinal {s : State} (h : s.isFinal = true) (hs : s ≠ .unfinished) :
    s = .satisfied ∨ s = .unsatisfied ∨ ∃ x, s = .faulted x := by
  cases s with
  | satisfied => exact .inl rfl
  | unsatisfied => exact .inr (.inl rfl)
  | faulted x => exact .inr (.inr ⟨x, rfl⟩)
  | unfinished => exact absurd rfl hs
  | propagating => cases h
  | deciding => cases h
  | conflict r => cases h

namespace Engine

variable {σ : Type} {f : Formula} {config : Config} {policy : Policy σ} {e e' : Engine σ}
  {s s' : State} {r : ClauseRef} {c d : Clause} {l : Literal} {k : Nat}

/-- A bound on the transitions that are left in a run. -/
def potential (e : Engine σ) (s : State) : Nat :=
  (3 ^ e.vars.size - e.store.learned.length) * (2 * e.vars.size + 4) +
    s.remaining (e.vars.size - e.trail.size)

/-- While the store stays, only what is left before the next conflict matters. -/
private theorem potential_lt (hstore : e'.store = e.store) (hvars : e'.vars = e.vars)
    (h : s'.remaining (e.vars.size - e'.trail.size) < s.remaining (e.vars.size - e.trail.size)) :
    e'.potential s' < e.potential s := by
  unfold potential
  rw [hstore, hvars]
  omega

namespace Running

/-- A learned clause is worth more than all that may be left to do after it. -/
private theorem potential_learns (h : e.Running f config policy) (hl : e.Learns c d l k e') :
    e'.potential .propagating < e.potential (.conflict r) := by
  have hvars : e'.vars = e.vars := by rw [hl.engine]
  have hlearned : e'.store.learned.length = e.store.learned.length + 1 := by
    rw [hl.engine]
    simp only [h.store.learned_push, List.length_append, List.length_singleton]
  have hle : e'.store.learned.length ≤ 3 ^ e.vars.size := by
    have := (hl.grownFrom h).length_learned_le
    rwa [h.vars, List.size_toArray]
  unfold potential
  rw [hvars, hlearned]
  obtain ⟨m, hm⟩ : ∃ m, 3 ^ e.vars.size - e.store.learned.length = m + 1 :=
    ⟨3 ^ e.vars.size - e.store.learned.length - 1, by omega⟩
  have hm' : 3 ^ e.vars.size - (e.store.learned.length + 1) = m := by omega
  rw [hm, hm', Nat.add_mul m 1]
  simp only [State.remaining]
  omega

/-- Every transition lowers the potential. -/
theorem potential_step (h : e.Running f config policy) (hm : e.Move s e' s') :
    e'.potential s' < e.potential s := by
  cases hm with
  | @propagate o q hq hshape hsettled =>
    refine potential_lt rfl rfl ?_
    have hle : e.trail.size ≤ q.trail.size := (hq.derives.continues h.wellFormed).size_le
    cases o with
    | some r => simp only [afterPropagation, State.remaining]; omega
    | none =>
      simp only [afterPropagation]
      split <;> simp only [State.remaining] <;> omega
  | stop hm => exact potential_lt rfl rfl (by simp only [State.remaining]; omega)
  | fault hm hx => exact potential_lt rfl rfl (by simp only [State.remaining]; omega)
  | @decide l memory t hm ht =>
    refine potential_lt rfl rfl ?_
    have ha := Trail.appends_of_pushDecision h.wellFormed ht
    have hle : t.size ≤ e.vars.size := by
      rw [h.vars, ← h.trail_vars, ← ha.vars]
      exact (h.wellFormed.append ha).size_le
    have hsize : (e.decided l memory t).trail.size = t.size := rfl
    have hsucc := ha.size_eq
    simp only [State.remaining]
    omega
  | refute hc hf hl => exact potential_lt rfl rfl (by simp only [State.remaining]; omega)
  | learn hc hf hl => exact h.potential_learns hl

/-- A run with enough steps reaches a final state, of which the invariant holds. -/
theorem run_spec {steps : Nat} (h : e.Running f config policy) (hs : e.InState f s)
    (hsteps : e.potential s ≤ steps) :
    ∃ e' s', e.run steps s = (e', s') ∧ s'.isFinal = true ∧ e'.Running f config policy ∧
      e'.InState f s' := by
  induction steps generalizing e s with
  | zero =>
    cases hfinal : s.isFinal with
    | true => exact ⟨e, s, Session.run_of_isFinal hfinal 0, hfinal, h, hs⟩
    | false =>
      have := h.potential_step (h.move hs hfinal rfl)
      omega
  | succ steps ih =>
    cases hfinal : s.isFinal with
    | true => exact ⟨e, s, Session.run_of_isFinal hfinal _, hfinal, h, hs⟩
    | false =>
      have hmove := h.move hs hfinal rfl
      have hlt := h.potential_step hmove
      obtain ⟨h', hs'⟩ := h.step hs hmove
      rw [Session.run_succ hfinal]
      exact ih h' hs' (Nat.le_of_lt_succ (Nat.lt_of_lt_of_le hlt hsteps))

end Running

/-- The loops of the next transition end by themselves: with larger bounds they come to the same,
although one more turn would change the trail, the head of the queue or the clause. -/
def LoopsEnd (e : Engine σ) : State → Prop
  | .propagating => ∀ more, match e.config.propagation with
    | .watchedLiterals => ∀ q, Progress.propagatePending e.store e.watcher.pending.toList
          { e.toProgress with watcher := { e.watcher with pending := #[] } } = .ok (none, q) →
        Progress.propagateQueue e.store (q.trail.numVariables + more) q =
          Progress.propagateQueue e.store q.trail.numVariables q
    | .fullScan => Progress.scanPasses e.store (e.trail.numVariables + 1 + more) e.toProgress =
        e.toProgress.scan e.store
  | .conflict r => ∀ more c, e.store.get? r = some c → 0 < e.trail.level →
      Analysis.resolveConflict e.store e.trail e.config.resolution
          (Analysis.stepBound e.trail + more) c =
        Analysis.resolveConflict e.store e.trail e.config.resolution (Analysis.stepBound e.trail) c
  | _ => True

theorem Running.loopsEnd (h : e.Running f config policy) (hs : e.InState f s) : e.LoopsEnd s := by
  cases s with
  | propagating =>
    intro more
    split
    · next hmode =>
      exact fun q hq =>
        Progress.propagateQueue_add h.store_over h.wellFormed h.shape (hs hmode) hq more
    · exact Progress.scanPasses_add h.store_over h.wellFormed more
  | conflict r =>
    obtain ⟨⟨c, hc, hf⟩, -⟩ := hs
    intro more d hd hl
    obtain rfl := Option.some.inj (hc.symm.trans hd)
    exact Analysis.resolveConflict_add h.wellFormed h.justified _ hf more
  | deciding => trivial
  | satisfied => trivial
  | unsatisfied => trivial
  | faulted x => trivial
  | unfinished => trivial

/-- The bound of a run is enough for every state of it. -/
theorem potential_le_stepBound (e : Engine σ) (s : State) : e.potential s ≤ e.stepBound := by
  have hremaining : s.remaining (e.vars.size - e.trail.size) ≤ 2 * e.vars.size + 4 := by
    cases s <;> simp only [State.remaining] <;> omega
  have hmul : (3 ^ e.vars.size - e.store.learned.length) * (2 * e.vars.size + 4) ≤
      3 ^ e.vars.size * (2 * e.vars.size + 4) := Nat.mul_le_mul_right _ (Nat.sub_le _ _)
  unfold potential stepBound
  rw [Nat.pow_eq, Nat.add_mul]
  omega

end Engine

namespace Session

variable {σ : Type} {f : Formula} {config : Config} {policy : Policy σ} {memory : σ} {e : Engine σ}

/-- A call of `Engine.solve` restarts the engine and runs it to a final state. -/
theorem exists_run (h : Reached f config policy memory ⟨e, none⟩) :
    ∃ e₁ e' s, e.restart = .ok e₁ ∧ e₁.run e₁.stepBound .propagating = (e', s) ∧
      e.solve = (verdict s, e'.finish s) ∧ s.isFinal = true ∧ s ≠ .unfinished := by
  have hsound : e.Sound f config policy := h.invariant
  obtain ⟨w, hr, -⟩ := Engine.exists_restart hsound
  obtain ⟨hrunning, hs⟩ := hsound.restart hr
  obtain ⟨e', s, hrun, hfinal, -, hs'⟩ := hrunning.run_spec hs (Engine.potential_le_stepBound _ _)
  refine ⟨_, e', s, hr, hrun, ?_, hfinal, ?_⟩
  · rw [solve_eq hr, hrun]
  · rintro rfl
    exact hs'

/-- At the end of a call everything holds that holds after the restart and is kept by the
transitions. -/
theorem solve_induct {P : Engine σ → State → Prop} (h : Reached f config policy memory ⟨e, none⟩)
    (hstart : ∀ {e'}, e.restart = .ok e' → P e' .propagating)
    (hmove : ∀ {e e' s s'}, Reached f config policy memory ⟨e, some s⟩ →
      Reached f config policy memory ⟨e', some s'⟩ → P e s → e.Move s e' s' → P e' s') :
    ∃ e' s, e.solve = (verdict s, e'.finish s) ∧ Reached f config policy memory ⟨e', some s⟩ ∧
      P e' s ∧ (s = .satisfied ∨ s = .unsatisfied ∨ ∃ x, s = .faulted x) := by
  obtain ⟨e₁, e', s, hr, hrun, hsolve, hfinal, hne⟩ := exists_run h
  obtain ⟨⟨h', hP⟩, -⟩ := run_induct
    (P := fun e s => Reached f config policy memory ⟨e, some s⟩ ∧ P e s) hrun hne
    ⟨h.tail (.start hr), hstart hr⟩ fun {e s} hs ⟨h, hP⟩ =>
      have hnext := h.tail (.step hs rfl)
      ⟨hnext, hmove h hnext hP (h.invariant.1.move h.invariant.2 hs rfl)⟩
  exact ⟨e', s, hsolve, h', hP, State.cases_of_isFinal hfinal hne⟩

/-- A call of `Engine.solve` leads to a final state of a run. -/
theorem exists_solve (h : Reached f config policy memory ⟨e, none⟩) :
    ∃ e' s, e.solve = (verdict s, e'.finish s) ∧ Reached f config policy memory ⟨e', some s⟩ ∧
      (s = .satisfied ∨ s = .unsatisfied ∨ ∃ x, s = .faulted x) := by
  obtain ⟨e', s, hsolve, h', -, hs⟩ :=
    solve_induct (P := fun _ _ => True) h (fun _ => trivial) fun _ _ _ _ => trivial
  exact ⟨e', s, hsolve, h', hs⟩

/-- Following transitions from a state of a run soon leads to an answer or a fault. -/
theorem exists_iterate_step {s : State} (h : Reached f config policy memory ⟨e, some s⟩) :
    ∃ n ≤ e.potential s, ∃ e' s', (fun x : Engine σ × State => x.1.step x.2)^[n] (e, s) = (e', s') ∧
      (s' = .satisfied ∨ s' = .unsatisfied ∨ ∃ x, s' = .faulted x) := by
  obtain ⟨hrunning, hs⟩ := h.invariant
  induction hn : e.potential s using Nat.strongRecOn generalizing e s with
  | ind n ih =>
    cases hfinal : s.isFinal with
    | true =>
      refine ⟨0, Nat.zero_le _, e, s, rfl, State.cases_of_isFinal hfinal ?_⟩
      rintro rfl
      exact hs
    | false =>
      have hmove := hrunning.move hs hfinal rfl
      have hlt := hrunning.potential_step hmove
      obtain ⟨hrunning', hs'⟩ := hrunning.step hs hmove
      obtain ⟨m, hm, e', s', hiter, hend⟩ :=
        ih _ (hn ▸ hlt) (h.tail (.step hfinal rfl)) hrunning' hs' rfl
      exact ⟨m + 1, by omega, e', s', hiter, hend⟩

/-- Every call of `Engine.solve`, on every engine a session can lead to, ends with an answer or a
fault: from each state of a run a bounded number of transitions leads there, and the loops of a
transition end by themselves. With the policies of both phases there is always an answer. -/
theorem solve_ends (f : Formula) (config : Config) (policy : Policy σ) (memory : σ) :
    (∀ e s, Reached f config policy memory ⟨e, some s⟩ → e.LoopsEnd s ∧
      ∃ n ≤ (3 ^ f.vars.length + 2) * (2 * f.vars.length + 4), ∃ e' s',
        (fun x : Engine σ × State => x.1.step x.2)^[n] (e, s) = (e', s') ∧
          (s' = .satisfied ∨ s' = .unsatisfied ∨ ∃ x, s' = .faulted x)) ∧
    (∀ e, Reached f config policy memory ⟨e, none⟩ →
      e.solve.1 = .sat ∨ e.solve.1 = .unsat ∨ ∃ x, e.solve.1 = .faulted x) ∧
    ∀ e, Reached f config config.phase.policy false ⟨e, none⟩ →
      e.solve.1 = .sat ∨ e.solve.1 = .unsat := by
  refine ⟨fun e s h => ?_, fun e h => ?_, fun e h => ?_⟩
  · obtain ⟨hrunning, hs⟩ := h.invariant
    obtain ⟨n, hn, hiter⟩ := exists_iterate_step h
    refine ⟨hrunning.loopsEnd hs, n, Nat.le_trans hn ?_, hiter⟩
    have := e.potential_le_stepBound s
    rwa [Engine.stepBound, Nat.pow_eq, hrunning.vars, List.size_toArray] at this
  · obtain ⟨e', s, hsolve, -, hs⟩ := exists_solve h
    rw [hsolve]
    exact hs.imp (congrArg verdict)
      (Or.imp (congrArg verdict) fun ⟨x, hx⟩ => ⟨x, congrArg verdict hx⟩)
  · obtain ⟨e', s, hsolve, h', hs⟩ := exists_solve h
    rw [hsolve]
    rcases hs with rfl | rfl | ⟨x, rfl⟩
    · exact .inl rfl
    · exact .inr rfl
    · exact absurd rfl (((reliable_phase f config).final h').1 x)

/-- A new engine for `notFirst` answers. -/
theorem notFirst_solve_ends :
    (Engine.ofFormula notFirst {}).solve.1 = .sat ∨
      (Engine.ofFormula notFirst {}).solve.1 = .unsat := by
  obtain ⟨-, -, hphase⟩ := solve_ends notFirst {} (Phase.policy .positive) false
  exact hphase (Engine.ofFormula notFirst {}) .refl

end Session

end ClauseLearning
