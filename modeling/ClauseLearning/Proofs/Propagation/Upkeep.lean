import ClauseLearning.Proofs.Propagation.Lists

/-!
# Propagation keeps the lists right

Whatever the watches have come to, a propagation of consistent tables returns, and they are
consistent at its return. Nothing is assumed of the clauses, of the head of the queue or of the
levels below: the completeness of a propagation needs more than this.

* `Progress.PendingStep`: what evaluating one pending clause comes to.
* `Progress.exists_propagatePending`, `exists_propagateQueue`, `exists_propagate`: the parts of a
  propagation, and the whole.
-/

namespace ClauseLearning

namespace Progress

variable {store : ClauseStore} {p : Progress} {c : Clause} {r : ClauseRef}
  {rest : List ClauseRef}

/-- What evaluating the pending clause of `r` comes to. -/
inductive PendingStep (store : ClauseStore) (r : ClauseRef) (rest : List ClauseRef) (p : Progress)
    (c : Clause) : Prop
  /-- The clause is settled, perhaps by the literal that it forces. -/
  | settled {q : Progress} (hd : p.Derives store q) (hwatcher : q.watcher = p.watcher)
      (hs : q.trail.Settles c)
      (hpending : propagatePending store (r :: rest) p = propagatePending store rest q)
  /-- The clause is falsified and stays pending, with those behind it. -/
  | conflict (hf : p.trail.Falsifies c)
      (hpending : propagatePending store (r :: rest) p =
        .ok (some r, { p with watcher := { p.watcher with pending := (r :: rest).toArray } }))

theorem pending_step (rest : List ClauseRef) (hover : store.Over p.trail.vars)
    (hw : p.trail.WellFormed) (hr : store.get? r = some c) : PendingStep store r rest p c := by
  cases hs : c.status p.trail with
  | unit l =>
    have hforces := Clause.forces_of_status hs
    obtain ⟨q, hq, hwatcher, hd, ha⟩ := exists_imply hw (hover.mem hr hforces.mem) hr hforces
    refine .settled hd hwatcher (.inl ⟨l, hforces.mem, ha.value_self⟩) ?_
    simp only [propagatePending, ClauseStore.fetch_eq_ok hr, hs, hq, bind, Except.bind]
  | falsified =>
    refine .conflict (Clause.falsifies_of_status hs) ?_
    simp only [propagatePending, ClauseStore.fetch_eq_ok hr, hs, bind, Except.bind]
    rfl
  | satisfied =>
    refine .settled (.refl p) rfl (Clause.settles_of_status (.inl hs)) ?_
    simp only [propagatePending, ClauseStore.fetch_eq_ok hr, hs, bind, Except.bind]
  | unresolved =>
    refine .settled (.refl p) rfl (Clause.settles_of_status (.inr hs)) ?_
    simp only [propagatePending, ClauseStore.fetch_eq_ok hr, hs, bind, Except.bind]

/-- Pending clauses can be evaluated, and the lists are not touched. -/
theorem exists_propagatePending (refs : List ClauseRef) (hp : Consistent store p)
    (hrefs : ∀ r ∈ refs, r.index < store.size) :
    ∃ o q, propagatePending store refs p = .ok (o, q) ∧ p.Derives store q ∧ Consistent store q ∧
      ∀ {r}, o = some r → ∃ c, store.get? r = some c ∧ q.trail.Falsifies c := by
  induction refs generalizing p with
  | nil => exact ⟨none, p, rfl, .refl p, hp, by simp⟩
  | cons r rest ih =>
    obtain ⟨c, hr⟩ := ClauseStore.exists_get? (hrefs r List.mem_cons_self)
    cases pending_step rest hp.store_over hp.wellFormed hr with
    | settled hd hwatcher _ hpending =>
      obtain ⟨o, q, hq, hd', hq', hf⟩ := ih (hp.derives hd hwatcher) fun r hr =>
        hrefs r (List.mem_cons_of_mem _ hr)
      exact ⟨o, q, hpending.trans hq, hd.trans hd', hq', hf⟩
    | conflict hf hpending =>
      refine ⟨some r, _, hpending, .of_eq rfl rfl,
        hp.queue p.watcher.head _ fun r hr => hrefs r (List.mem_toArray.mp hr), fun hr' => ?_⟩
      cases hr'
      exact ⟨c, hr, hf⟩

/-- The negation of an assigned literal is false. -/
theorem value_negate_of_assigned {l : Literal} {n : Nat} (hw : p.trail.WellFormed)
    (hl : p.trail.assigned[n]? = some l) : p.trail.value l.negate = some false := by
  obtain ⟨s, hs, hlit, -⟩ := hw.assigned_iff.mp hl
  exact hw.value_eq_false_iff.mpr ⟨s, hs, by rw [hlit, Literal.negate_negate]⟩

/-- The queue can be worked off from any position. -/
theorem exists_propagateQueue (steps : Nat) (hp : Consistent store p) :
    ∃ o q, propagateQueue store steps p = .ok (o, q) ∧ p.Derives store q ∧ Consistent store q ∧
      ∀ {r}, o = some r → ∃ c, store.get? r = some c ∧ q.trail.Falsifies c := by
  induction steps generalizing p with
  | zero => exact ⟨none, p, rfl, .refl p, hp, by simp⟩
  | succ steps ih =>
    simp only [propagateQueue]
    cases hl : p.trail.assigned[p.watcher.head]? with
    | none => exact ⟨none, p, rfl, .refl p, hp, by simp⟩
    | some l =>
      obtain ⟨o, q, hq, hd, -, -, hq', hf⟩ :=
        exists_falsify (hp.queue (p.watcher.head + 1) _ hp.shape.pending)
          (value_negate_of_assigned hp.wellFormed hl)
      simp only [hq, bind, Except.bind]
      cases o with
      | some r => exact ⟨some r, q, rfl, hd, hq', hf⟩
      | none =>
        obtain ⟨o, q₂, hq₂, hd₂, hrest⟩ := ih hq'
        exact ⟨o, q₂, hq₂, hd.trans hd₂, hrest⟩

/-- A propagation of consistent tables returns, with consistent tables. -/
theorem exists_propagate (hp : Consistent store p) :
    ∃ o q, p.propagate store = .ok (o, q) ∧ p.Derives store q ∧ Consistent store q ∧
      ∀ {r}, o = some r → ∃ c, store.get? r = some c ∧ q.trail.Falsifies c := by
  obtain ⟨o, q, hq, hd, hq', hf⟩ := exists_propagatePending p.watcher.pending.toList
    (hp.queue p.watcher.head #[] (by simp)) fun r hr =>
      hp.shape.pending r (Array.mem_toList_iff.mp hr)
  simp only [propagate, hq, bind, Except.bind]
  cases o with
  | some r => exact ⟨some r, q, rfl, hd, hq', hf⟩
  | none =>
    obtain ⟨o, q₂, hq₂, hd₂, hrest⟩ := exists_propagateQueue q.trail.numVariables hq'
    exact ⟨o, q₂, hq₂, hd.trans hd₂, hrest⟩

end Progress

end ClauseLearning
