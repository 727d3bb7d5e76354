import ClauseLearning.Proofs.Trail.Truth

/-!
# Reasons

Every implied literal of a trail has a reason: a clause of the store that contains it and whose
other literals were falsified earlier (`Trail.Justified`). So whatever makes the clauses of the
store and the decisions true makes the trail true (`Justified.holds`): at the root level, the
clauses alone.
-/

namespace ClauseLearning

namespace ClauseStore

variable {store : ClauseStore} {c d : Clause} {r : ClauseRef}

theorem mem_clauses_iff : c ∈ store.clauses ↔ ∃ r, store.get? r = some c := by
  rw [Array.mem_iff_getElem?]
  exact ⟨fun ⟨i, hi⟩ => ⟨⟨i⟩, hi⟩, fun ⟨r, hr⟩ => ⟨r.index, hr⟩⟩

theorem fetch_eq_ok_iff : store.fetch r = .ok c ↔ store.get? r = some c := by
  unfold fetch
  cases store.get? r <;> simp

theorem fetch_eq_ok (h : store.get? r = some c) : store.fetch r = .ok c := fetch_eq_ok_iff.mpr h

theorem index_lt_of_get? (h : store.get? r = some c) : r.index < store.size := by
  obtain ⟨hi, -⟩ := Array.getElem?_eq_some_iff.mp h
  exact hi

theorem exists_get? (h : r.index < store.size) : ∃ c, store.get? r = some c :=
  ⟨_, Array.getElem?_eq_getElem h⟩

/-- A reference into a grown store is the new one or an earlier one. -/
theorem get?_push_cases (h : (store.push c).get? r = some d) :
    r = store.nextRef ∧ d = c ∨ store.get? r = some d := by
  rw [get?, push, Array.getElem?_push] at h
  split at h
  · next hi =>
    left
    obtain ⟨i⟩ := r
    exact ⟨congrArg ClauseRef.mk hi, (Option.some.inj h).symm⟩
  · exact .inr h

theorem mem_push : d ∈ (store.push c).clauses ↔ d ∈ store.clauses ∨ d = c := by
  simp [push]

end ClauseStore

namespace Trail

variable {store : ClauseStore} {t t' : Trail} {v : Var} {l : Literal} {s : Slot} {c : Clause}
  {r : ClauseRef} {k : Nat}

/-- `c` is a reason for the assignment `s` of the trail: it contains the literal, and its other
literals were falsified before. -/
def IsReason (t : Trail) (c : Clause) (s : Slot) : Prop :=
  s.literal ∈ c ∧ ∀ m ∈ c, m ≠ s.literal →
    ∃ s', t.slot m.var = some s' ∧ s'.literal = m.negate ∧ s'.position < s.position

/-- Every implied literal has its reason in the store. -/
def Justified (store : ClauseStore) (t : Trail) : Prop :=
  ∀ ⦃v s r⦄, t.slot v = some s → s.reason = .clause r → ∃ c, store.get? r = some c ∧ t.IsReason c s

namespace IsReason

theorem mono (h : t.IsReason c s) (hold : ∀ {v s}, t.slot v = some s → t'.slot v = some s) :
    t'.IsReason c s :=
  ⟨h.1, fun m hm hne =>
    let ⟨s', hs', hl, hp⟩ := h.2 m hm hne
    ⟨s', hold hs', hl, hp⟩⟩

/-- The reason does not contain the negation of its literal. -/
theorem negate_not_mem (h : t.IsReason c s) (hs : t.slot v = some s) (hl : s.literal.var = v) :
    s.literal.negate ∉ c := by
  intro hm
  obtain ⟨s', hs', -, hp⟩ := h.2 _ hm (Literal.negate_ne _)
  rw [Literal.negate_var, hl, hs] at hs'
  cases hs'
  exact Nat.lt_irrefl _ hp

end IsReason

namespace Justified

theorem of_no_slots (h : ∀ v, t.slot v = none) : t.Justified store := by
  intro v s r hs
  rw [h] at hs
  cases hs

/-- Reasons stay where they are when the store grows. -/
theorem push (hj : t.Justified store) (c : Clause) : t.Justified (store.push c) := by
  intro v s r hs hr
  obtain ⟨d, hd, hreason⟩ := hj hs hr
  exact ⟨d, ClauseStore.get?_push hd, hreason⟩

/-- A clause that forces a literal becomes its reason. -/
theorem appendImplied (h : t.WellFormed) (hj : t.Justified store)
    (ha : t.Appends l (.clause r) t') (hr : store.get? r = some c) (hc : t.Forces c l) :
    t'.Justified store := by
  intro v s r' hs hr'
  rcases ha.slot_cases hs with ⟨rfl, rfl⟩ | hs
  · cases hr'
    refine ⟨c, hr, hc.mem, fun m hm hne => ?_⟩
    obtain ⟨s', hs', hl⟩ := h.value_eq_false_iff.mp (hc.others m hm hne)
    exact ⟨s', ha.slot_old hs', hl, h.slot_lt hs'⟩
  · obtain ⟨d, hd, hreason⟩ := hj hs hr'
    exact ⟨d, hd, hreason.mono ha.slot_old⟩

/-- A decision needs no reason. -/
theorem appendDecision (hj : t.Justified store) (ha : t.Appends l .decision t') :
    t'.Justified store := by
  intro v s r hs hr
  rcases ha.slot_cases hs with ⟨rfl, rfl⟩ | hs
  · cases hr
  · obtain ⟨d, hd, hreason⟩ := hj hs hr
    exact ⟨d, hd, hreason.mono ha.slot_old⟩

/-- What a literal was implied by is not undone before it. -/
theorem backtrack (h : t.WellFormed) (hj : t.Justified store) (k : Nat) :
    (t.backtrack k).Justified store := by
  intro v s r hs hr
  obtain ⟨hs, hk⟩ := (slot_backtrack_eq_some_iff h).mp hs
  obtain ⟨d, hd, hmem, hothers⟩ := hj hs hr
  refine ⟨d, hd, hmem, fun m hm hne => ?_⟩
  obtain ⟨s', hs', hl, hp⟩ := hothers m hm hne
  have hle := h.level_mono hs' hs (Nat.le_of_lt hp)
  exact ⟨s', (slot_backtrack_eq_some_iff h).mpr ⟨hs', Nat.le_trans hle hk⟩, hl, hp⟩

/-- The trail up to a level follows from the store and from the decisions up to that level. -/
theorem holds (h : t.WellFormed) (hj : t.Justified store) {a : Assignment}
    (hstore : ∀ c ∈ store.clauses, c.Holds a)
    (hdecisions : ∀ {v s}, t.slot v = some s → s.reason = .decision → s.level ≤ k →
      s.literal.Holds a)
    (hs : t.slot v = some s) (hk : s.level ≤ k) : s.literal.Holds a := by
  -- On the position: the other literals of the reason come earlier, so they are false.
  induction hp : s.position using Nat.strongRecOn generalizing v s with
  | ind p ih =>
    cases hr : s.reason with
    | decision => exact hdecisions hs hr hk
    | clause r =>
      obtain ⟨c, hc, -, hothers⟩ := hj hs hr
      obtain ⟨m, hm, hma⟩ := hstore c (ClauseStore.mem_clauses_iff.mpr ⟨r, hc⟩)
      by_cases hne : m = s.literal
      · rwa [← hne]
      · obtain ⟨s', hs', hl, hlt⟩ := hothers m hm hne
        have hle := h.level_mono hs' hs (Nat.le_of_lt hlt)
        have := ih s'.position (hp ▸ hlt) hs' (Nat.le_trans hle hk) rfl
        rw [hl] at this
        exact absurd hma (Literal.holds_negate.mp this)

end Justified

end Trail

end ClauseLearning
