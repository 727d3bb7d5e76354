import ClauseLearning.Engine.Analysis
import ClauseLearning.Proofs.Trail.Reasons
import Mathlib.Algebra.Order.Ring.GeomSum
import Mathlib.Logic.Relation

/-!
# Resolving a conflict

The resolution of a conflict keeps the clause falsified, implied by the store and in touch with the
current level (`Analysis.Conflicting`). While several literals of the level are left, one of them is
implied, because a level has one decision; so the resolution only ends at a clause with one literal
of the level.

* `Analysis.weight_lt`: a resolution replaces a literal by literals assigned before it, so the
  positions of the clause, read as a binary number, go down.
* `Analysis.Resolves`: one resolution. `Analysis.step_spec`: each step makes one or finishes.
* `Analysis.resolveConflict_spec`: the loop, with as many steps as `Analysis.stepBound` allows.
-/

namespace ClauseLearning

namespace Analysis

variable {store : ClauseStore} {t : Trail} {order : ResolutionOrder} {c d : Clause} {l m : Literal}
  {r : ClauseRef} {s : Slot}

/-! ## Positions as a binary number -/

/-- The positions of the assignments of the variables of the clause. -/
def positions (t : Trail) (c : Clause) : Finset Nat :=
  (c.literals.toList.filterMap fun l => t.position l.var).toFinset

/-- The positions as a binary number. -/
def weight (t : Trail) (c : Clause) : Nat := ∑ p ∈ positions t c, 2 ^ p

theorem mem_positions {p : Nat} :
    p ∈ positions t c ↔ ∃ l ∈ c, ∃ s, t.slot l.var = some s ∧ s.position = p := by
  simp [positions, Trail.position, Clause.mem_def]

theorem weight_lt_two_pow_size (h : t.WellFormed) (c : Clause) : weight t c < 2 ^ t.size := by
  apply Nat.geomSum_lt (Nat.le_refl 2)
  intro p hp
  obtain ⟨l, -, s, hs, rfl⟩ := mem_positions.mp hp
  exact h.slot_lt hs

/-- Replacing one position by smaller ones makes the number smaller. -/
theorem weight_lt {p : Nat} (hp : p ∈ positions t c)
    (h : ∀ q ∈ positions t d, q ∈ positions t c ∧ q ≠ p ∨ q < p) : weight t d < weight t c := by
  have hsub : positions t d ⊆ (positions t c).erase p ∪ (positions t d).filter (· < p) := by
    intro q hq
    rw [Finset.mem_union, Finset.mem_erase, Finset.mem_filter]
    exact (h q hq).imp And.symm fun hlt => ⟨hq, hlt⟩
  calc weight t d
      ≤ ∑ q ∈ (positions t c).erase p ∪ (positions t d).filter (· < p), 2 ^ q :=
        Finset.sum_le_sum_of_subset hsub
    _ ≤ ∑ q ∈ (positions t c).erase p, 2 ^ q + ∑ q ∈ (positions t d).filter (· < p), 2 ^ q := by
        rw [← Finset.sum_union_inter]
        exact Nat.le_add_right _ _
    _ < ∑ q ∈ (positions t c).erase p, 2 ^ q + 2 ^ p :=
        Nat.add_lt_add_left (Nat.geomSum_lt (Nat.le_refl 2) fun q hq =>
          (Finset.mem_filter.mp hq).2) _
    _ = weight t c := Finset.sum_erase_add _ _ hp

/-! ## One resolution -/

/-- What the resolution of a conflict keeps: the clause is falsified and implied by the store, and
one of its literals was falsified at the current level. -/
structure Conflicting (store : ClauseStore) (t : Trail) (c : Clause) : Prop where
  falsified : t.Falsifies c
  entailed : Entails store.clauses.toList c
  current : ∃ l ∈ c, ∃ s, t.slot l.var = some s ∧ s.level = t.level

theorem mem_atLevel : l ∈ atLevel t c ↔ l ∈ c ∧ ∃ s, t.slot l.var = some s ∧ s.level = t.level := by
  simp [atLevel, Trail.levelOf, Clause.mem_def]

theorem mem_candidates : (l, r) ∈ candidates t c ↔
    l ∈ c ∧ ∃ s, t.slot l.var = some s ∧ s.level = t.level ∧ s.reason = .clause r := by
  rw [candidates, List.mem_filterMap]
  constructor
  · rintro ⟨m, hm, heq⟩
    obtain ⟨hmc, s, hs, hlevel⟩ := mem_atLevel.mp hm
    simp only [Trail.reason, hs, Option.map_some] at heq
    split at heq
    · next r' hr =>
      cases heq
      exact ⟨hmc, s, hs, hlevel, Option.some.inj hr⟩
    · cases heq
  · rintro ⟨hl, s, hs, hlevel, hr⟩
    refine ⟨l, mem_atLevel.mpr ⟨hl, s, hs, hlevel⟩, ?_⟩
    simp only [Trail.reason, hs, Option.map_some, hr]

theorem mem_candidates_of_pivot {x : Literal × ClauseRef} (hx : pivot t order c = some x) :
    x ∈ candidates t c := by
  cases order with
  | reverseTrail => exact List.maxOn?_mem hx
  | smallestVariable => exact List.minOn?_mem hx
  | largestVariable => exact List.maxOn?_mem hx

/-- Every order picks one of the candidates, if there are any. -/
theorem exists_pivot (order : ResolutionOrder) {x : Literal × ClauseRef} (hx : x ∈ candidates t c) :
    ∃ y, pivot t order c = some y := by
  apply Option.isSome_iff_exists.mp
  cases order with
  | reverseTrail => exact List.isSome_maxOn?_of_mem hx
  | smallestVariable => exact List.isSome_minOn?_of_mem hx
  | largestVariable => exact List.isSome_maxOn?_of_mem hx

/-- The last candidate on the trail is picked. -/
theorem position_le_of_pivot {r' : ClauseRef} {s' : Slot}
    (hpivot : pivot t .reverseTrail c = some (l, r)) (hm : (m, r') ∈ candidates t c)
    (hs : t.slot l.var = some s) (hs' : t.slot m.var = some s') : s'.position ≤ s.position := by
  have hmax := List.le_apply_get_maxOn?_of_mem
    (f := fun x : Literal × ClauseRef => (t.position x.1.var).getD 0) hm
  have hget : (candidates t c).maxOn? (fun x => (t.position x.1.var).getD 0) = some (l, r) := hpivot
  simp only [hget, Option.get_some] at hmax
  simpa [Trail.position, hs, hs'] using hmax

/-- Of two literals of the level, one is implied: the level has one decision. -/
theorem exists_candidate (hw : t.WellFormed) (hf : t.Falsifies c)
    (hlength : 1 < (atLevel t c).length) : ∃ x, x ∈ candidates t c := by
  have hnodup : (atLevel t c).Nodup := c.nodup_literals.filter _
  have hmem : ∀ {l}, l ∈ atLevel t c → l ∈ c ∧ ∃ s, t.slot l.var = some s ∧ s.level = t.level :=
    mem_atLevel.mp
  revert hlength hnodup hmem
  cases atLevel t c with
  | nil => simp
  | cons l ls =>
    cases ls with
    | nil => simp
    | cons m ls =>
      intro _ hnodup hmem
      obtain ⟨hl, s, hs, hlevel⟩ := hmem (l := l) (by simp)
      obtain ⟨hm, s', hs', hlevel'⟩ := hmem (l := m) (by simp)
      have hne : l ≠ m := by
        rintro rfl
        simp at hnodup
      cases hr : s.reason with
      | clause r => exact ⟨(l, r), mem_candidates.mpr ⟨hl, s, hs, hlevel, hr⟩⟩
      | decision =>
        cases hr' : s'.reason with
        | clause r => exact ⟨(m, r), mem_candidates.mpr ⟨hm, s', hs', hlevel', hr'⟩⟩
        | decision =>
          have := hw.decision_unique hs hs' hr hr' (hlevel.trans hlevel'.symm)
          exact absurd (hf.eq_of_var hw hl hm this) hne

/-- A literal of the level that is not the pivot. -/
theorem exists_atLevel_ne (hlength : 1 < (atLevel t c).length) (l : Literal) :
    ∃ m ∈ atLevel t c, m ≠ l := by
  apply Classical.byContradiction
  intro hall
  have heq : atLevel t c = List.replicate (atLevel t c).length l :=
    List.eq_replicate_iff.mpr
      ⟨rfl, fun m hm => Classical.byContradiction fun hne => hall ⟨m, hm, hne⟩⟩
  have hnodup : (atLevel t c).Nodup := c.nodup_literals.filter _
  rw [heq, List.nodup_replicate] at hnodup
  omega

theorem eq_of_mem_atLevel (hlength : (atLevel t c).length ≤ 1) (hl : l ∈ atLevel t c)
    (hm : m ∈ atLevel t c) : l = m := by
  obtain ⟨i, hi, rfl⟩ := List.mem_iff_getElem.mp hl
  obtain ⟨j, hj, rfl⟩ := List.mem_iff_getElem.mp hm
  obtain rfl : i = j := by omega
  rfl

/-- A falsified clause that was settled on the level below has several literals of the level. -/
theorem one_lt_length_atLevel (hw : t.WellFormed) (hlevel : 0 < t.level) (hf : t.Falsifies c)
    (hbelow : (t.backtrack (t.level - 1)).Settles c) : 1 < (atLevel t c).length := by
  have hcurrent : ∀ l ∈ c, (t.backtrack (t.level - 1)).value l = none → l ∈ atLevel t c := by
    intro l hl hnone
    obtain ⟨s, hs, -⟩ := hf.exists_slot hw hl
    have hlt := (Trail.value_backtrack_eq_none_iff hw).mp hnone s hs
    have hle := hw.level_le hs
    exact mem_atLevel.mpr ⟨hl, s, hs, by omega⟩
  rcases hbelow with ⟨l, hl, ht⟩ | ⟨l, hl, m, hm, hne, hnl, hnm⟩
  · obtain ⟨hv, -⟩ := (Trail.value_backtrack_eq_some_iff hw).mp ht
    rw [hf l hl] at hv
    cases hv
  · exact Nat.lt_of_not_le fun hlength =>
      hne (eq_of_mem_atLevel hlength (hcurrent l hl hnl) (hcurrent m hm hnm))

section Resolve

variable (hw : t.WellFormed) (hs : t.slot l.var = some s) (hreason : t.IsReason d s)

include hw hs hreason

/-- The resolvent of a falsified clause with a reason is falsified. -/
theorem falsifies_resolve (hf : t.Falsifies c) : t.Falsifies (Clause.resolve l.var c d) := by
  intro m hm
  obtain ⟨hmem, hvar⟩ := Clause.mem_resolve.mp hm
  rcases hmem with hmc | hmd
  · exact hf m hmc
  · have hne : m ≠ s.literal := by
      rintro rfl
      exact hvar (hw.literal_var hs)
    obtain ⟨s', hs', hneg, -⟩ := hreason.2 m hmd hne
    exact hw.value_eq_false_iff.mpr ⟨s', hs', hneg⟩

/-- The resolvent weighs less: what comes from the reason was assigned before the pivot. -/
theorem weight_resolve_lt (hl : l ∈ c) : weight t (Clause.resolve l.var c d) < weight t c := by
  apply weight_lt (mem_positions.mpr ⟨l, hl, s, hs, rfl⟩)
  intro q hq
  obtain ⟨m, hm, u, hu, rfl⟩ := mem_positions.mp hq
  obtain ⟨hmem, hvar⟩ := Clause.mem_resolve.mp hm
  rcases hmem with hmc | hmd
  · refine .inl ⟨mem_positions.mpr ⟨m, hmc, u, hu, rfl⟩, fun heq => ?_⟩
    exact hvar (hw.eq_of_position hu hs heq).1
  · have hne : m ≠ s.literal := by
      rintro rfl
      exact hvar (hw.literal_var hs)
    obtain ⟨u', hu', -, hlt⟩ := hreason.2 m hmd hne
    obtain rfl := Option.some.inj (hu.symm.trans hu')
    exact .inr hlt

variable (hc : Conflicting store t c) (hl : l ∈ c) (hd : d ∈ store.clauses)

include hc hl hd

/-- The resolvent of an implied clause with a clause of the store is implied. -/
theorem entails_resolve : Entails store.clauses.toList (Clause.resolve l.var c d) := by
  intro a ha
  obtain ⟨s', hs', hneg⟩ := hc.falsified.exists_slot hw hl
  obtain rfl := Option.some.inj (hs.symm.trans hs')
  have hcl : l.negate ∉ c := fun hmem => by
    have := hc.falsified.eq_of_var hw hl hmem rfl
    exact Literal.negate_ne l this.symm
  have hdl : l ∉ d := by
    have := hreason.negate_not_mem hs (hw.literal_var hs)
    rwa [hneg, Literal.negate_negate] at this
  refine Clause.holds_resolve (p := !l.positive) (hc.entailed a ha)
    (ha d (Array.mem_toList_iff.mpr hd)) hcl ?_
  rwa [Bool.not_not]

/-- A resolution keeps what the resolution of a conflict keeps. -/
theorem Conflicting.resolve (hlength : 1 < (atLevel t c).length) :
    Conflicting store t (Clause.resolve l.var c d) := by
  refine ⟨falsifies_resolve hw hs hreason hc.falsified, entails_resolve hw hs hreason hc hl hd, ?_⟩
  obtain ⟨m, hm, hne⟩ := exists_atLevel_ne hlength l
  obtain ⟨hmc, u, hu, hlevel⟩ := mem_atLevel.mp hm
  exact ⟨m, Clause.mem_resolve.mpr ⟨.inl hmc, fun hv =>
    hne (hc.falsified.eq_of_var hw hmc hl hv)⟩, u, hu, hlevel⟩

end Resolve

/-- One resolution of a conflict: the pivot is replaced by the other literals of its reason. -/
inductive Resolves (store : ClauseStore) (t : Trail) (order : ResolutionOrder) (c : Clause) :
    Clause → Prop
  | pivot {l : Literal} {r : ClauseRef} {d : Clause} (hlength : 1 < (atLevel t c).length)
      (hpivot : Analysis.pivot t order c = some (l, r)) (hd : store.get? r = some d) :
      Resolves store t order c (Clause.resolve l.var c d)

/-- The pivot is an implied literal of the level. -/
theorem slot_of_pivot (hj : t.Justified store) (hpivot : pivot t order c = some (l, r))
    (hd : store.get? r = some d) : l ∈ c ∧
      ∃ s, t.slot l.var = some s ∧ s.level = t.level ∧ s.reason = .clause r ∧ t.IsReason d s := by
  obtain ⟨hl, s, hs, hlevel, hr⟩ := mem_candidates.mp (mem_candidates_of_pivot hpivot)
  obtain ⟨d', hd', hreason⟩ := hj hs hr
  obtain rfl := Option.some.inj (hd.symm.trans hd')
  exact ⟨hl, s, hs, hlevel, hr, hreason⟩

theorem Resolves.falsifies (hw : t.WellFormed) (hj : t.Justified store) (hf : t.Falsifies c)
    (h : Resolves store t order c d) : t.Falsifies d := by
  obtain ⟨-, hpivot, hd⟩ := h
  obtain ⟨-, s, hs, -, -, hreason⟩ := slot_of_pivot hj hpivot hd
  exact falsifies_resolve hw hs hreason hf

theorem Conflicting.of_resolves (hw : t.WellFormed) (hj : t.Justified store)
    (hc : Conflicting store t c) (h : Resolves store t order c d) : Conflicting store t d := by
  obtain ⟨hlength, hpivot, hd⟩ := h
  obtain ⟨hl, s, hs, -, -, hreason⟩ := slot_of_pivot hj hpivot hd
  exact hc.resolve hw hs hreason hl (ClauseStore.mem_clauses_iff.mpr ⟨_, hd⟩) hlength

theorem Resolves.weight_lt (hw : t.WellFormed) (hj : t.Justified store)
    (h : Resolves store t order c d) : weight t d < weight t c := by
  obtain ⟨-, hpivot, hd⟩ := h
  obtain ⟨hl, s, hs, -, -, hreason⟩ := slot_of_pivot hj hpivot hd
  exact weight_resolve_lt hw hs hreason hl

/-- A step resolves exactly if there are several literals of the level, and a pivot among them whose
reason is in the store. -/
theorem step_eq_resolved_iff :
    step store t order c = .ok (.resolved d) ↔ Resolves store t order c d := by
  unfold step
  constructor
  · intro h
    split at h
    · cases h
    · next hlength =>
      split at h
      · cases h
      · next l r hpivot =>
        cases hreason : store.fetch r with
        | error x =>
          rw [hreason] at h
          cases h
        | ok reason =>
          rw [hreason] at h
          cases h
          exact .pivot (Nat.lt_of_not_le hlength) hpivot (ClauseStore.fetch_eq_ok_iff.mp hreason)
  · rintro ⟨hlength, hpivot, hd⟩
    simp only [Nat.not_le.mpr hlength, hpivot, ClauseStore.fetch_eq_ok hd, bind, Except.bind,
      ↓reduceIte]
    rfl

/-- One step finishes with one literal of the level, or resolves. -/
theorem step_spec (hw : t.WellFormed) (hj : t.Justified store) (order : ResolutionOrder)
    (hf : t.Falsifies c) :
    step store t order c = .ok (.exit .finished) ∧ (atLevel t c).length ≤ 1 ∨
      ∃ d, step store t order c = .ok (.resolved d) ∧ Resolves store t order c d := by
  by_cases hlength : (atLevel t c).length ≤ 1
  · exact .inl ⟨if_pos hlength, hlength⟩
  · have hlength : 1 < (atLevel t c).length := Nat.lt_of_not_le hlength
    obtain ⟨x, hx⟩ := exists_candidate hw hf hlength
    obtain ⟨⟨l, r⟩, hpivot⟩ := exists_pivot order hx
    obtain ⟨-, s, hs, -, hr⟩ := mem_candidates.mp (mem_candidates_of_pivot hpivot)
    obtain ⟨d, hd, -⟩ := hj hs hr
    have hresolves : Resolves store t order c (Clause.resolve l.var c d) :=
      .pivot hlength hpivot hd
    exact .inr ⟨_, step_eq_resolved_iff.mpr hresolves, hresolves⟩

/-! ## The loop -/

/-- A sequence of resolutions keeps what each of them keeps. -/
theorem Conflicting.of_resolutions (hw : t.WellFormed) (hj : t.Justified store)
    (hc : Conflicting store t c) (h : Relation.ReflTransGen (Resolves store t order) c d) :
    Conflicting store t d := by
  induction h with
  | refl => exact hc
  | tail _ h ih => exact ih.of_resolves hw hj h

/-- Enough steps resolve the conflict to a clause with one literal of the level, and more change
nothing. -/
theorem resolveConflict_spec (steps : Nat) (hw : t.WellFormed) (hj : t.Justified store)
    (order : ResolutionOrder) (hf : t.Falsifies c) (hsteps : weight t c < steps) :
    ∃ d, (∀ more, resolveConflict store t order (steps + more) c = .ok (.finished, d)) ∧
      Relation.ReflTransGen (Resolves store t order) c d ∧ (atLevel t d).length ≤ 1 := by
  induction steps generalizing c with
  | zero => exact absurd hsteps (Nat.not_lt_zero _)
  | succ steps ih =>
    rcases step_spec hw hj order hf with ⟨hstep, hlength⟩ | ⟨d, hstep, hd⟩
    · refine ⟨c, fun more => ?_, .refl, hlength⟩
      simp only [Nat.succ_add, resolveConflict, hstep, bind, Except.bind]
      rfl
    · have hlt := hd.weight_lt hw hj
      obtain ⟨e, he, hresolves, hlength⟩ := ih (hd.falsifies hw hj hf) (by omega)
      refine ⟨e, fun more => ?_, .head hd hresolves, hlength⟩
      simp only [Nat.succ_add, resolveConflict, hstep, bind, Except.bind]
      exact he more

/-- The bound on the resolutions is never what ends them. -/
theorem resolveConflict_add (hw : t.WellFormed) (hj : t.Justified store) (order : ResolutionOrder)
    (hf : t.Falsifies c) (more : Nat) :
    resolveConflict store t order (stepBound t + more) c =
      resolveConflict store t order (stepBound t) c := by
  obtain ⟨d, hd, -⟩ := resolveConflict_spec (stepBound t) hw hj order hf
    (Nat.lt_succ_of_lt (weight_lt_two_pow_size hw c))
  exact (hd more).trans (hd 0).symm

/-- The analysis of a falsified clause finishes, at a clause with one literal of the level at most. -/
theorem exists_analyze (hw : t.WellFormed) (hj : t.Justified store) (order : ResolutionOrder)
    (hf : t.Falsifies c) :
    ∃ d, analyze store t order c = .ok ⟨d, backjumpLevel t d, .finished⟩ ∧
      Relation.ReflTransGen (Resolves store t order) c d ∧ (atLevel t d).length ≤ 1 := by
  obtain ⟨d, hd, hresolves, hlength⟩ := resolveConflict_spec (stepBound t) hw hj order hf
    (Nat.lt_succ_of_lt (weight_lt_two_pow_size hw c))
  have hresolve : resolveConflict store t order (stepBound t) c = .ok (.finished, d) := hd 0
  refine ⟨d, ?_, hresolves, hlength⟩
  simp only [analyze, hresolve, bind, Except.bind]
  rfl

end Analysis

end ClauseLearning
