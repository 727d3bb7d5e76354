import ClauseLearning.Proofs.Conflict.Resolution
import ClauseLearning.Proofs.Propagation.Resuming
import Mathlib.Order.Bounds.Defs

/-!
# Learning from a conflict

The clause that the resolution of a conflict ends at has one literal of the current level. On the
highest level of its other literals it forces this one, and below it is settled (`Trail.ReturnsTo`).

* `ReturnsTo.asserting`, `ReturnsTo.settles`: what the learned clause says at the level of return
  and below. `ReturnsTo.isLeast`: so this is the lowest level at which it forces a literal.
* `Analysis.returnsTo`: `backjumpLevel` is the highest level of the other literals.
* `analyze_resolves`, `analyze_spec`: the analysis of a conflict never faults and always finishes.
-/

namespace ClauseLearning

namespace Trail

variable {t : Trail} {c : Clause} {l m : Literal} {i k : Nat}

/-- Every literal of the clause is false, `l` is the only one of the current level, and `k` is the
highest level of the others: the root level, if there are none. -/
structure ReturnsTo (t : Trail) (c : Clause) (l : Literal) (k : Nat) : Prop where
  mem : l ∈ c
  falsified : t.Falsifies c
  current : ∃ s, t.slot l.var = some s ∧ s.level = t.level
  lt_level : k < t.level
  others : ∀ m ∈ c, m ≠ l → ∃ s, t.slot m.var = some s ∧ s.level ≤ k
  highest : c.size = 1 ∧ k = 0 ∨
    c.size ≠ 1 ∧ ∃ m ∈ c, m ≠ l ∧ ∃ s, t.slot m.var = some s ∧ s.level = k

namespace ReturnsTo

/-- On every lower level from `k` up, the clause forces `l`. -/
theorem forces (hw : t.WellFormed) (h : t.ReturnsTo c l k) (hki : k ≤ i) (hi : i < t.level) :
    (t.backtrack i).Forces c l := by
  refine ⟨h.mem, ?_, fun m hm hne => ?_⟩
  · rw [value_backtrack_eq_none_iff hw]
    intro s hs
    obtain ⟨s', hs', hlevel⟩ := h.current
    obtain rfl := Option.some.inj (hs.symm.trans hs')
    omega
  · obtain ⟨s, hs, hle⟩ := h.others m hm hne
    exact (value_backtrack_eq_some_iff hw).mpr ⟨h.falsified m hm, s, hs, Nat.le_trans hle hki⟩

/-- At level `k` the clause is asserting. -/
theorem asserting (hw : t.WellFormed) (h : t.ReturnsTo c l k) : (t.backtrack k).Asserting c l := by
  have hlevel : (t.backtrack k).level = k := by
    rw [level_backtrack]
    exact Nat.min_eq_left (Nat.le_of_lt h.lt_level)
  refine ⟨h.forces hw (Nat.le_refl k) h.lt_level, ?_⟩
  rcases h.highest with ⟨hsize, rfl⟩ | ⟨hsize, m, hm, hne, s, hs, rfl⟩
  · exact .inl ⟨hsize, hlevel⟩
  · exact .inr ⟨hsize, m, hm, hne, s,
      (slot_backtrack_eq_some_iff hw).mpr ⟨hs, Nat.le_refl _⟩, hlevel.symm⟩

/-- Below level `k` the clause is settled: two of its literals are unassigned. -/
theorem settles (hw : t.WellFormed) (h : t.ReturnsTo c l k) (hik : i < k) :
    (t.backtrack i).Settles c := by
  have hnone : ∀ m, (∃ s, t.slot m.var = some s ∧ i < s.level) →
      (t.backtrack i).value m = none := by
    rintro m ⟨s, hs, hlt⟩
    rw [value_backtrack_eq_none_iff hw]
    intro s' hs'
    obtain rfl := Option.some.inj (hs.symm.trans hs')
    exact hlt
  rcases h.highest with ⟨-, rfl⟩ | ⟨-, m, hm, hne, s, hs, rfl⟩
  · exact absurd hik (Nat.not_lt_zero i)
  · obtain ⟨s', hs', hlevel⟩ := h.current
    have hlt := h.lt_level
    exact .inr ⟨m, hm, l, h.mem, hne, hnone m ⟨s, hs, hik⟩, hnone l ⟨s', hs', by omega⟩⟩

/-- The level of return is the lowest one at which the clause forces a literal. -/
theorem isLeast (hw : t.WellFormed) (h : t.ReturnsTo c l k) :
    IsLeast {j | j < t.level ∧ ∃ m, (t.backtrack j).Forces c m} k := by
  refine ⟨⟨h.lt_level, l, h.forces hw (Nat.le_refl k) h.lt_level⟩, fun j ⟨_, m, hm⟩ => ?_⟩
  exact Nat.le_of_not_lt fun hjk => (h.settles hw hjk).not_forces hm

theorem length_atLevel (h : t.ReturnsTo c l k) : (Analysis.atLevel t c).length = 1 := by
  have hl : l ∈ Analysis.atLevel t c := Analysis.mem_atLevel.mpr ⟨h.mem, h.current⟩
  refine Nat.le_antisymm (Nat.le_of_not_lt fun hlength => ?_) (List.length_pos_of_mem hl)
  obtain ⟨m, hm, hne⟩ := Analysis.exists_atLevel_ne hlength l
  obtain ⟨hmc, s, hs, hlevel⟩ := Analysis.mem_atLevel.mp hm
  obtain ⟨s', hs', hle⟩ := h.others m hmc hne
  obtain rfl := Option.some.inj (hs.symm.trans hs')
  exact absurd hlevel (Nat.ne_of_lt (Nat.lt_of_le_of_lt hle h.lt_level))

/-- The clause that returns to a lower level has a single literal of the current one. -/
theorem atLevel_eq (h : t.ReturnsTo c l k) : Analysis.atLevel t c = [l] := by
  obtain ⟨m, hm⟩ := List.length_eq_one_iff.mp h.length_atLevel
  have hl : l ∈ Analysis.atLevel t c := Analysis.mem_atLevel.mpr ⟨h.mem, h.current⟩
  rw [hm, List.mem_singleton] at hl
  rw [hm, hl]

/-- The clause has no variable twice. -/
theorem negate_not_mem (hw : t.WellFormed) (h : t.ReturnsTo c l k) (hm : m ∈ c) : m.negate ∉ c :=
  fun hneg => Literal.negate_ne m (h.falsified.eq_of_var hw hneg hm rfl)

end ReturnsTo

end Trail

namespace Analysis

variable {store : ClauseStore} {t : Trail} {order : ResolutionOrder} {c d : Clause} {l m : Literal}

/-- The levels of the literals of the clause. -/
def levels (t : Trail) (c : Clause) : List Nat :=
  c.literals.toList.filterMap fun l => t.levelOf l.var

theorem mem_levels {k : Nat} :
    k ∈ levels t c ↔ ∃ l ∈ c, ∃ s, t.slot l.var = some s ∧ s.level = k := by
  simp [levels, Trail.levelOf, Clause.mem_def]

section OneLiteral

variable (hw : t.WellFormed) (hl : l ∈ c)
  (hcurrent : ∃ s, t.slot l.var = some s ∧ s.level = t.level)

include hw hl hcurrent

theorem backjumpLevel_eq : backjumpLevel t c = ((levels t c).filter (· < t.level)).max?.getD 0 := by
  have hhighest : (levels t c).max? = some t.level := by
    rw [List.max?_eq_some_iff]
    refine ⟨mem_levels.mpr ⟨l, hl, hcurrent⟩, fun k hk => ?_⟩
    obtain ⟨m, -, s, hs, rfl⟩ := mem_levels.mp hk
    exact hw.level_le hs
  rw [levels] at hhighest
  simp only [backjumpLevel, levels, hhighest, Option.getD_some]

/-- The other literals belong to lower levels. -/
private theorem exists_slot_lt (hf : t.Falsifies c) (hlength : (atLevel t c).length ≤ 1)
    (hm : m ∈ c) (hne : m ≠ l) : ∃ s, t.slot m.var = some s ∧ s.level < t.level := by
  obtain ⟨s, hs, -⟩ := hf.exists_slot hw hm
  refine ⟨s, hs, Nat.lt_of_le_of_ne (hw.level_le hs) fun heq => ?_⟩
  exact hne (eq_of_mem_atLevel hlength (mem_atLevel.mpr ⟨hm, s, hs, heq⟩)
    (mem_atLevel.mpr ⟨hl, hcurrent⟩))

/-- A falsified clause with one literal of the current level returns to its second highest level. -/
theorem returnsTo (hlevel : 0 < t.level) (hf : t.Falsifies c)
    (hlength : (atLevel t c).length ≤ 1) : t.ReturnsTo c l (backjumpLevel t c) := by
  have hlower : ∀ {m}, m ∈ c → m ≠ l → ∃ s, t.slot m.var = some s ∧ s.level < t.level :=
    exists_slot_lt hw hl hcurrent hf hlength
  have hmem : ∀ {k}, k ∈ (levels t c).filter (· < t.level) ↔
      (∃ m ∈ c, ∃ s, t.slot m.var = some s ∧ s.level = k) ∧ k < t.level := by
    intro k
    rw [List.mem_filter, mem_levels, decide_eq_true_iff]
  rw [backjumpLevel_eq hw hl hcurrent]
  cases hmax : ((levels t c).filter (· < t.level)).max? with
  | none =>
    have hnone : ∀ m ∈ c, m = l := by
      intro m hm
      apply Classical.byContradiction
      intro hne
      obtain ⟨s, hs, hlt⟩ := hlower hm hne
      have := hmem.mpr ⟨⟨m, hm, s, hs, rfl⟩, hlt⟩
      rw [List.max?_eq_none_iff.mp hmax] at this
      exact List.not_mem_nil this
    exact ⟨hl, hf, hcurrent, hlevel, fun m hm hne => absurd (hnone m hm) hne,
      .inl ⟨Clause.size_eq_one hl hnone, rfl⟩⟩
  | some k =>
    obtain ⟨hk, hle⟩ := List.max?_eq_some_iff.mp hmax
    obtain ⟨⟨m, hm, s, hs, rfl⟩, hlt⟩ := hmem.mp hk
    have hne : m ≠ l := by
      rintro rfl
      obtain ⟨s', hs', heq⟩ := hcurrent
      obtain rfl := Option.some.inj (hs.symm.trans hs')
      exact Nat.ne_of_lt hlt heq
    refine ⟨hl, hf, hcurrent, hlt, fun n hn hnl => ?_,
      .inr ⟨fun h => hne (Clause.eq_of_size_eq_one h hm hl), m, hm, hne, s, hs, rfl⟩⟩
    obtain ⟨u, hu, hult⟩ := hlower hn hnl
    exact ⟨u, hu, hle u.level (hmem.mpr ⟨⟨n, hn, u, hu, rfl⟩, hult⟩)⟩

end OneLiteral

end Analysis

/-! ## The learned clause -/

/-- The analysis of a conflict above the root level never faults and always finishes: resolutions
lead to a clause that returns to a lower level, where it forces a literal. -/
theorem analyze_resolves {store : ClauseStore} {t : Trail} {c : Clause} (hw : t.WellFormed)
    (hj : t.Justified store) (order : ResolutionOrder) (hlevel : 0 < t.level)
    (hc : Analysis.Conflicting store t c) :
    ∃ d l k, analyze store t order c = .ok ⟨d, k, .finished⟩ ∧
      Relation.ReflTransGen (Analysis.Resolves store t order) c d ∧ t.ReturnsTo d l k := by
  obtain ⟨d, hanalyze, hresolves, hlength⟩ := Analysis.exists_analyze hw hj order hc.falsified
  have hconflict := hc.of_resolutions hw hj hresolves
  obtain ⟨l, hl, hcurrent⟩ := hconflict.current
  exact ⟨d, l, _, hanalyze, hresolves,
    Analysis.returnsTo hw hl hcurrent hlevel hconflict.falsified hlength⟩

/-- What is learned follows from the store. -/
theorem analyze_spec {store : ClauseStore} {t : Trail} {c : Clause} (hw : t.WellFormed)
    (hj : t.Justified store) (order : ResolutionOrder) (hlevel : 0 < t.level)
    (hc : Analysis.Conflicting store t c) :
    ∃ d l k, analyze store t order c = .ok ⟨d, k, .finished⟩ ∧ Entails store.clauses.toList d ∧
      t.ReturnsTo d l k := by
  obtain ⟨d, l, k, hanalyze, hresolves, hreturns⟩ := analyze_resolves hw hj order hlevel hc
  exact ⟨d, l, k, hanalyze, (hc.of_resolutions hw hj hresolves).entailed, hreturns⟩

end ClauseLearning
