import ClauseLearning.Proofs.Trail.Truth

/-!
# The literals of each level

`Trail.AssignsAt` says which literals a trail holds at which level, `Trail.decisions` which of them
opened the levels.

* `WellFormed.assignsUpTo_iff`: the literals up to a level are the true ones once the higher levels
  are undone.
* `WellFormed.getElem?_decisions_eq_some_iff`, `WellFormed.mem_take_decisions`,
  `WellFormed.slot_of_getLast?_decisions`: the decisions are read off the slots.
-/

namespace ClauseLearning

namespace Trail

variable {t t' : Trail} {v : Var} {l : Literal} {s : Slot} {k n : Nat}

/-- The literal is on the trail, at level `n`. -/
def AssignsAt (t : Trail) (l : Literal) (n : Nat) : Prop :=
  l ∈ t.assigned ∧ t.levelOf l.var = some n

/-- The literal is on the trail, at level `k` or below. -/
def AssignsUpTo (t : Trail) (l : Literal) (k : Nat) : Prop := ∃ n ≤ k, t.AssignsAt l n

/-- The level of a literal is the first one up to which it is on the trail. -/
theorem assignsAt_iff : t.AssignsAt l n ↔ t.AssignsUpTo l n ∧ ∀ j < n, ¬t.AssignsUpTo l j := by
  constructor
  · intro h
    refine ⟨⟨n, Nat.le_refl n, h⟩, fun j hj ⟨i, hi, hil⟩ => ?_⟩
    have : n = i := Option.some.inj (h.2.symm.trans hil.2)
    omega
  · rintro ⟨⟨i, hi, hil⟩, hlower⟩
    obtain rfl : i = n := by
      apply Nat.le_antisymm hi
      apply Nat.le_of_not_lt
      exact fun hlt => hlower i hlt ⟨i, Nat.le_refl i, hil⟩
    exact hil

/-- Trails that agree up to each level, from the root up to level `k`, agree at each of them. -/
theorem assignsAt_congr (h : ∀ j ≤ k, ∀ l, t.AssignsUpTo l j ↔ t'.AssignsUpTo l j) (hn : n ≤ k)
    (l : Literal) : t.AssignsAt l n ↔ t'.AssignsAt l n := by
  rw [assignsAt_iff, assignsAt_iff, h n hn]
  refine and_congr_right fun _ => forall_congr' fun j => imp_congr_right fun hj => ?_
  rw [h j (by omega)]

namespace WellFormed

/-- The literals of the trail are the true ones. -/
theorem mem_assigned_iff (h : t.WellFormed) : l ∈ t.assigned ↔ t.value l = some true := by
  rw [Array.mem_iff_getElem?, value_eq_true_iff]
  constructor
  · rintro ⟨p, hp⟩
    obtain ⟨s, hs, hlit, -⟩ := h.assigned_iff.mp hp
    exact ⟨s, hs, hlit⟩
  · rintro ⟨s, hs, hlit⟩
    exact ⟨s.position, h.assigned_iff.mpr ⟨s, hs, hlit, rfl⟩⟩

theorem assignsAt_iff_slot (h : t.WellFormed) :
    t.AssignsAt l n ↔ ∃ s, t.slot l.var = some s ∧ s.literal = l ∧ s.level = n := by
  rw [AssignsAt, h.mem_assigned_iff, value_eq_true_iff, levelOf, Option.map_eq_some_iff]
  constructor
  · rintro ⟨⟨s, hs, hlit⟩, s', hs', hlevel⟩
    obtain rfl := Option.some.inj (hs.symm.trans hs')
    exact ⟨s, hs, hlit, hlevel⟩
  · rintro ⟨s, hs, hlit, hlevel⟩
    exact ⟨⟨s, hs, hlit⟩, s, hs, hlevel⟩

/-- The literals up to level `k` are those that are true once the higher levels are undone. -/
theorem assignsUpTo_iff (h : t.WellFormed) :
    t.AssignsUpTo l k ↔ (t.backtrack k).value l = some true := by
  rw [value_backtrack_eq_some_iff h, value_eq_true_iff]
  constructor
  · rintro ⟨n, hn, hl⟩
    obtain ⟨s, hs, hlit, rfl⟩ := h.assignsAt_iff_slot.mp hl
    exact ⟨⟨s, hs, hlit⟩, s, hs, hn⟩
  · rintro ⟨⟨s, hs, hlit⟩, s', hs', hk⟩
    obtain rfl := Option.some.inj (hs.symm.trans hs')
    exact ⟨s.level, hk, h.assignsAt_iff_slot.mpr ⟨s, hs, hlit, rfl⟩⟩

/-! ## Decisions -/

theorem value_of_mem_decisions (h : t.WellFormed) (hl : l ∈ t.decisions) :
    t.value l = some true := by
  obtain ⟨q, -, hq⟩ := List.mem_filterMap.mp hl
  exact h.mem_assigned_iff.mp (Array.mem_of_getElem? hq)

/-- Every level has its decision. -/
private theorem map_some_decisions (h : t.WellFormed) :
    t.decisions.map some = t.starts.toList.map (t.assigned[·]?) := by
  rw [decisions, List.map_filterMap_some_eq_filter_map_isSome, List.filter_eq_self]
  intro o ho
  obtain ⟨q, hq, rfl⟩ := List.mem_map.mp ho
  obtain ⟨k, hk⟩ := List.mem_iff_getElem?.mp hq
  rw [Array.getElem?_toList] at hk
  exact Option.isSome_iff_exists.mpr ⟨_, Array.getElem?_eq_getElem (h.start_lt hk)⟩

theorem length_decisions (h : t.WellFormed) : t.decisions.length = t.level := by
  simpa [level] using congrArg List.length h.map_some_decisions

private theorem getElem?_decisions (h : t.WellFormed) (k : Nat) :
    t.decisions[k]? = t.starts[k]?.bind (t.assigned[·]?) := by
  have := congrArg (·[k]?) h.map_some_decisions
  simp only [List.getElem?_map, Array.getElem?_toList] at this
  cases hq : t.starts[k]? with
  | none => simpa [hq] using this
  | some q =>
    obtain ⟨l, hl, hql⟩ : ∃ l, t.decisions[k]? = some l ∧ some l = t.assigned[q]? := by
      simpa [hq] using this
    rw [hl, Option.bind_some, hql]

/-- The starts of the levels are the positions of the decisions. -/
theorem getElem?_starts_eq_some_iff (h : t.WellFormed) {q : Nat} : t.starts[k]? = some q ↔
    ∃ v s, t.slot v = some s ∧ s.reason = .decision ∧ s.level = k + 1 ∧ s.position = q := by
  constructor
  · intro hq
    obtain ⟨v, s, hs, rfl, hlevel⟩ := h.start hq
    exact ⟨v, s, hs, (h.decision_iff hs).mpr ⟨k, hq⟩, hlevel, rfl⟩
  · rintro ⟨v, s, hs, hreason, hlevel, rfl⟩
    obtain ⟨j, hj⟩ := (h.decision_iff hs).mp hreason
    obtain ⟨w, s', hs', hpos, hlevel'⟩ := h.start hj
    obtain ⟨-, rfl⟩ := h.eq_of_position hs hs' hpos.symm
    obtain rfl : j = k := by omega
    exact hj

/-- The decision at place `k` is the one that opened level `k + 1`. -/
theorem getElem?_decisions_eq_some_iff (h : t.WellFormed) : t.decisions[k]? = some l ↔
    ∃ s, t.slot l.var = some s ∧ s.literal = l ∧ s.reason = .decision ∧ s.level = k + 1 := by
  rw [h.getElem?_decisions, Option.bind_eq_some_iff]
  simp only [h.getElem?_starts_eq_some_iff, h.assigned_iff]
  constructor
  · rintro ⟨q, ⟨v, s, hs, hreason, hlevel, hpos⟩, s', hs', hlit, hpos'⟩
    obtain ⟨-, rfl⟩ := h.eq_of_position hs hs' (hpos.trans hpos'.symm)
    exact ⟨s, hs', hlit, hreason, hlevel⟩
  · rintro ⟨s, hs, hlit, hreason, hlevel⟩
    exact ⟨s.position, ⟨l.var, s, hs, hreason, hlevel, rfl⟩, s, hs, hlit, rfl⟩

/-- Above the root level there is a decision. -/
theorem exists_getLast?_decisions (h : t.WellFormed) (hlevel : 0 < t.level) :
    ∃ l, t.decisions.getLast? = some l := by
  have hlength := h.length_decisions
  cases hd : t.decisions.getLast? with
  | some d => exact ⟨d, rfl⟩
  | none =>
    rw [List.getLast?_eq_none_iff.mp hd] at hlength
    exact absurd hlength (Nat.ne_of_lt hlevel)

/-- The last decision opened the current level. -/
theorem slot_of_getLast?_decisions (h : t.WellFormed) (hl : t.decisions.getLast? = some l) :
    ∃ s, t.slot l.var = some s ∧ s.literal = l ∧ s.reason = .decision ∧ s.level = t.level := by
  have hne : t.decisions ≠ [] := by
    rintro hnil
    rw [hnil] at hl
    cases hl
  have hpos := List.length_pos_of_ne_nil hne
  rw [List.getLast?_eq_getElem?] at hl
  obtain ⟨s, hs, hlit, hreason, hlevel⟩ := h.getElem?_decisions_eq_some_iff.mp hl
  rw [h.length_decisions] at hlevel hpos
  exact ⟨s, hs, hlit, hreason, by omega⟩

/-- The first `k` decisions are those of the levels up to `k`. -/
theorem mem_take_decisions (h : t.WellFormed) : l ∈ t.decisions.take k ↔
    ∃ s, t.slot l.var = some s ∧ s.literal = l ∧ s.reason = .decision ∧ s.level ≤ k := by
  rw [List.mem_iff_getElem?]
  constructor
  · rintro ⟨j, hj⟩
    rw [List.getElem?_take] at hj
    split at hj
    · next hjk =>
      obtain ⟨s, hs, hlit, hreason, hlevel⟩ := h.getElem?_decisions_eq_some_iff.mp hj
      exact ⟨s, hs, hlit, hreason, by omega⟩
    · cases hj
  · rintro ⟨s, hs, hlit, hreason, hlevel⟩
    have hpos := h.level_pos_of_decision hs hreason
    refine ⟨s.level - 1, ?_⟩
    rw [List.getElem?_take, if_pos (by omega)]
    exact h.getElem?_decisions_eq_some_iff.mpr ⟨s, hs, hlit, hreason, by omega⟩

end WellFormed

/-- The decisions stay while the order of assignments only grows. -/
theorem decisions_of_prefix (h : t.WellFormed)
    (hassigned : t.assigned.toList <+: t'.assigned.toList) :
    t.starts.toList.filterMap (t'.assigned[·]?) = t.decisions := by
  refine List.filterMap_congr fun q hq => ?_
  obtain ⟨k, hk⟩ := List.mem_iff_getElem?.mp hq
  rw [Array.getElem?_toList] at hk
  have hlt : q < t.assigned.toList.length := by
    rw [Array.length_toList]
    exact h.start_lt hk
  obtain ⟨rest, hrest⟩ := hassigned
  rw [← Array.getElem?_toList, ← Array.getElem?_toList, ← hrest, List.getElem?_append_left hlt]

/-- A decision is appended to the earlier ones. -/
theorem Appends.decisions (h : t.WellFormed) (ha : t.Appends l .decision t') :
    t'.decisions = t.decisions ++ [l] := by
  have hstarts : t'.starts = t.starts.push t.size := by
    rcases ha.starts with ⟨-, hne⟩ | ⟨hst, -⟩
    · exact absurd rfl hne
    · exact hst
  have hold : t.starts.toList.filterMap (t'.assigned[·]?) = t.decisions :=
    decisions_of_prefix h (by simp [ha.assigned])
  have hnew : t'.assigned[t.size]? = some l := by
    rw [ha.assigned, Array.getElem?_push, size, if_pos rfl]
  rw [Trail.decisions, hstarts, Array.toList_push, List.filterMap_append, hold]
  simp [hnew]

end Trail

end ClauseLearning
