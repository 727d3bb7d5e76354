import ClauseLearning.Proofs.Engine.Termination
import ClauseLearning.Proofs.Propagation.Closure

/-!
# Every level is a fixpoint

When a decision is asked for or the formula counts as satisfied, each level of the trail is
saturated with the whole store, also with clauses that were learned after the level was filled. How
a propagation goes does not matter for this: by watches it comes to the same as by scanning.

* `Running.saturated`: the levels of a trail on which every clause is settled.
* `Session.levels_saturated`: each level before a decision and at the end of a run.
* `Session.watches_agree_with_scan`: the two ways to propagate, from the same state.
-/

namespace ClauseLearning

variable {σ : Type} {f : Formula} {config : Config} {policy : Policy σ} {memory : σ} {e : Engine σ}

/-- Once every clause is settled on the whole trail, each level is saturated. -/
theorem Engine.Running.saturated (h : e.Running f config policy)
    (hsettles : ∀ c ∈ e.store.clauses, e.trail.Settles c) (k : Nat) :
    e.trail.Saturated e.store k := by
  refine Trail.saturated h.wellFormed h.justified fun c hc => ?_
  rcases Nat.lt_or_ge k e.trail.level with hlt | hge
  · exact h.settled k hlt c hc
  · rw [Trail.backtrack_eq_self hge]
    exact hsettles c hc

namespace Session

/-- Whenever a decision is asked for, the formula counts as satisfied or a call has answered `sat`:
up to each level, the trail holds exactly what unit propagation derives from the whole store and
from the decisions of these levels, and no clause is unit or falsified there. -/
theorem levels_saturated (f : Formula) (config : Config) (policy : Policy σ) (memory : σ)
    (e : Engine σ) :
    (∀ s, Reached f config policy memory ⟨e, some s⟩ → s = .deciding ∨ s = .satisfied →
      ∀ k ≤ e.trail.level, e.trail.Saturated e.store k) ∧
    (Reached f config policy memory ⟨e, none⟩ → e.solve.1 = .sat →
      ∀ k ≤ e.solve.2.trail.level, e.solve.2.trail.Saturated e.solve.2.store k) := by
  have hrun : ∀ {e : Engine σ} {s}, Reached f config policy memory ⟨e, some s⟩ →
      s = .deciding ∨ s = .satisfied → ∀ k, e.trail.Saturated e.store k := by
    intro e s h hs
    obtain ⟨hrunning, hstate⟩ := h.invariant
    rcases hs with rfl | rfl
    · exact hrunning.saturated hstate.1
    · exact hrunning.saturated hstate
  refine ⟨fun s h hs k _ => hrun h hs k, fun h hsat k _ => ?_⟩
  obtain ⟨e', s, hsolve, h', hs⟩ := exists_solve h
  rw [hsolve] at hsat ⊢
  rcases hs with rfl | rfl | ⟨x, rfl⟩
  · exact hrun h' (.inr rfl) k
  · cases hsat
  · cases hsat

/-- When `notFirst` has taught that `x1` is false, the next decision is asked for with the root
level saturated; the run ends with both levels saturated. -/
theorem notFirst_saturated :
    ((notFirstAfter 6).state = some .deciding ∧
      (notFirstAfter 6).engine.store.learned = [.ofLiteral ⟨⟨1, Nat.one_pos⟩, false⟩] ∧
      (notFirstAfter 6).engine.trail.Saturated (notFirstAfter 6).engine.store 0) ∧
    (Engine.ofFormula notFirst {}).solve.2.trail.Saturated
      (Engine.ofFormula notFirst {}).solve.2.store 1 := by
  have hstate : (notFirstAfter 6).state = some .deciding := by decide +kernel
  refine ⟨⟨hstate, by decide +kernel, ?_⟩, ?_⟩
  · exact (levels_saturated notFirst {} _ false _).1 _ (reached_notFirstAfter hstate) (.inl rfl) 0
      (Nat.zero_le _)
  · exact (levels_saturated notFirst {} (Phase.policy .positive) false (.ofFormula notFirst {})).2
      .refl (by decide +kernel) 1 (by decide +kernel)

/-- In every state that is to be propagated by watches, a scan of the same store and trail would
come to the same: both find a conflict, or both assign the same literals at the same levels. Each of
them only appends implied literals at the current level, and a conflict of each is falsified on its
own trail. -/
theorem watches_agree_with_scan (hmode : config.propagation = .watchedLiterals)
    (h : Reached f config policy memory ⟨e, some .propagating⟩) :
    ∃ o q o' q', e.toProgress.propagate e.store = .ok (o, q) ∧
      e.toProgress.scan e.store = .ok (o', q') ∧
      (o = none ↔ o' = none) ∧
      (o = none → ∀ l n, q.trail.AssignsAt l n ↔ q'.trail.AssignsAt l n) ∧
      (∀ r, o = some r → ∃ c, e.store.get? r = some c ∧ q.trail.Falsifies c) ∧
      (∀ r, o' = some r → ∃ c, e.store.get? r = some c ∧ q'.trail.Falsifies c) ∧
      (e.trail.Continues q.trail ∧ q.trail.Justified e.store) ∧
      (e.trail.Continues q'.trail ∧ q'.trail.Justified e.store) := by
  obtain ⟨hrunning, hready⟩ := h.invariant
  have hw := hrunning.wellFormed
  have hj := hrunning.justified
  have hwatches : e.Watches := by
    rw [Engine.Watches, hrunning.config]
    exact hmode
  obtain ⟨o, q, hq, hprop, -⟩ :=
    Progress.propagate_spec hrunning.store_over hw hrunning.shape (hready hwatches)
  obtain ⟨o', q', hq', -, hprop'⟩ := Progress.scan_spec hrunning.store_over hw
  obtain ⟨hiff, hlevels⟩ := hprop.congr hw hj hprop'
  exact ⟨o, q, o', q', hq, hq', hiff, hlevels, fun _ => hprop.falsified, fun _ => hprop'.falsified,
    ⟨hprop.derives.continues hw, hprop.derives.justified hw hj⟩,
    ⟨hprop'.derives.continues hw, hprop'.derives.justified hw hj⟩⟩

/-- After the first decision on `notFirst` the watches lead to a conflict, so a scan would too. -/
theorem notFirst_agrees :
    (notFirstAfter 3).state = some .propagating ∧ ∃ r q q',
      (notFirstAfter 3).engine.toProgress.propagate (notFirstAfter 3).engine.store =
        .ok (some ⟨1⟩, q) ∧
      (notFirstAfter 3).engine.toProgress.scan (notFirstAfter 3).engine.store =
        .ok (some r, q') := by
  have hstate : (notFirstAfter 3).state = some .propagating := by decide +kernel
  have hconflict : ((notFirstAfter 3).engine.toProgress.propagate
      (notFirstAfter 3).engine.store).map Prod.fst = .ok (some ⟨1⟩) := by decide +kernel
  obtain ⟨o, q, o', q', hq, hq', hiff, -⟩ :=
    watches_agree_with_scan rfl (reached_notFirstAfter hstate)
  rw [hq] at hconflict
  obtain rfl : o = some ⟨1⟩ := Except.ok.inj hconflict
  cases o' with
  | none => exact absurd (hiff.mpr rfl) (by simp)
  | some r => exact ⟨hstate, r, q, q', hq, hq'⟩

end Session

end ClauseLearning
