import ClauseLearning.Engine.Trail
import Mathlib.Data.List.Perm.Subperm

/-!
# Well-formed trails

A trail keeps the same facts three times: in the slots, in the order of assignments and in the
starts of the levels. `Trail.WellFormed` says that they agree. Everything else about a trail is read
off its slots (`Trail.slot`):

* `Trail.Appends`, `Trail.slot_backtrack`, `Trail.reset_eq_empty`: what each change does to the
  slots.
* `WellFormed.append`, `WellFormed.backtrack`: each change keeps the trail well formed.
* `WellFormed.level_mono`: levels do not decrease in the order of assignments.
* `WellFormed.size_eq_iff`: a trail as long as its list of variables assigns all of them.
-/

namespace ClauseLearning

namespace Trail

/-- The slots, the order of assignments and the starts of the levels agree. -/
structure WellFormed (t : Trail) : Prop where
  sorted : Ascending.Sorted Var.id t.vars.toList
  slots_size : t.slots.size = t.vars.size
  literal_var : ∀ {v s}, t.slot v = some s → s.literal.var = v
  assigned_iff : ∀ {p l}, t.assigned[p]? = some l ↔
    ∃ s, t.slot l.var = some s ∧ s.literal = l ∧ s.position = p
  level_le : ∀ {v s}, t.slot v = some s → s.level ≤ t.level
  /-- An assignment is above level `k` if it was made after the level of number `k + 1` began. -/
  lt_level_iff : ∀ {v s k q}, t.slot v = some s → t.starts[k]? = some q →
    (k < s.level ↔ q ≤ s.position)
  /-- Each level above the root begins with an assignment of its own. -/
  start : ∀ {k q}, t.starts[k]? = some q →
    ∃ v s, t.slot v = some s ∧ s.position = q ∧ s.level = k + 1
  decision_iff : ∀ {v s}, t.slot v = some s →
    (s.reason = .decision ↔ ∃ k : Nat, t.starts[k]? = some s.position)

variable {t t' : Trail} {v w : Var} {l : Literal} {s : Slot} {k : Nat}

/-! ## Ranks of variables -/

theorem index_eq_some_iff (hs : Ascending.Sorted Var.id t.vars.toList) {i : Nat} :
    t.index v = some i ↔ t.vars[i]? = some v := by
  rw [index, Ascending.search_eq_some_iff hs]
  constructor
  · rintro ⟨x, hx, hid⟩
    rwa [← Var.ext_id hid]
  · exact fun h => ⟨v, h, rfl⟩

theorem mem_vars_of_index {i : Nat} (h : t.index v = some i) : v ∈ t.vars := by
  obtain ⟨x, hx, hid⟩ := Ascending.key_of_searchWithin h
  rw [← Var.ext_id hid]
  exact Array.mem_of_getElem? hx

theorem index_inj (hs : Ascending.Sorted Var.id t.vars.toList) {i : Nat} (hv : t.index v = some i)
    (hw : t.index w = some i) : v = w := by
  rw [index_eq_some_iff hs] at hv hw
  exact Option.some.inj (hv.symm.trans hw)

theorem exists_index (hs : Ascending.Sorted Var.id t.vars.toList) (h : v ∈ t.vars) :
    ∃ i, t.index v = some i := by
  obtain ⟨i, hi⟩ := Array.mem_iff_getElem?.mp h
  exact ⟨i, (index_eq_some_iff hs).mpr hi⟩

theorem index_lt (hs : Ascending.Sorted Var.id t.vars.toList) {i : Nat} (h : t.index v = some i) :
    i < t.vars.size := by
  obtain ⟨hi, -⟩ := Array.getElem?_eq_some_iff.mp ((index_eq_some_iff hs).mp h)
  exact hi

/-- The rank of a variable and the codes of its literals depend on the variables alone. -/
theorem index_congr (h : t'.vars = t.vars) (v : Var) : t'.index v = t.index v := by
  rw [index, index, h]

theorem code_congr (h : t'.vars = t.vars) (l : Literal) : t'.code l = t.code l := by
  rw [code, code, index_congr h]

theorem code_inj (hs : Ascending.Sorted Var.id t.vars.toList) {l m : Literal} {n : Nat}
    (hl : t.code l = some n) (hm : t.code m = some n) : l = m := by
  simp only [code, Option.map_eq_some_iff] at hl hm
  obtain ⟨i, hi, hl⟩ := hl
  obtain ⟨j, hj, hm⟩ := hm
  obtain ⟨lv, lp⟩ := l
  obtain ⟨mv, mp⟩ := m
  have hij : i = j ∧ lp = mp := by
    cases lp <;> cases mp <;> simp only [Bool.false_eq_true, ↓reduceIte] at hl hm <;>
      simp <;> omega
  obtain ⟨rfl, rfl⟩ := hij
  exact congrArg (Literal.mk · lp) (index_inj hs hi hj)

theorem code_lt (hs : Ascending.Sorted Var.id t.vars.toList) {n : Nat} (h : t.code l = some n) :
    n < 2 * t.numVariables := by
  simp only [code, Option.map_eq_some_iff] at h
  obtain ⟨i, hi, rfl⟩ := h
  have := index_lt hs hi
  simp only [numVariables]
  split <;> omega

/-- Every number below twice the number of variables is the code of a literal. -/
theorem exists_code_eq (hs : Ascending.Sorted Var.id t.vars.toList) {n : Nat}
    (hn : n < 2 * t.vars.size) : ∃ l, t.code l = some n := by
  have hi : n / 2 < t.vars.size := by omega
  have hidx := (index_eq_some_iff hs).mpr (Array.getElem?_eq_getElem hi)
  refine ⟨⟨t.vars[n / 2], n % 2 = 0⟩, ?_⟩
  simp only [code, hidx, Option.map_some, decide_eq_true_eq, Option.some.injEq]
  split <;> omega

theorem exists_code (hs : Ascending.Sorted Var.id t.vars.toList) (h : l.var ∈ t.vars) :
    ∃ n, t.code l = some n := by
  obtain ⟨i, hi⟩ := exists_index hs h
  exact ⟨_, by rw [code, hi]; rfl⟩

/-! ## The slots of a changed trail -/

theorem mem_vars_of_slot (h : t.slot v = some s) : v ∈ t.vars := by
  obtain ⟨i, hi, -⟩ := Option.bind_eq_some_iff.mp h
  exact mem_vars_of_index hi

@[simp] theorem slot_empty (vs : Array Var) (v : Var) : (empty vs).slot v = none := by
  rw [slot, Option.bind_eq_none_iff]
  intro i _
  simp only [empty, Array.getElem?_replicate]
  split <;> rfl

/-- An assignment fills the slot of its variable. -/
theorem slot_set (hs : Ascending.Sorted Var.id t.vars.toList) (hz : t.slots.size = t.vars.size)
    {i : Nat} (hi : t.index l.var = some i) {x : Option Slot} (v : Var) :
    ({ t with slots := t.slots.setIfInBounds i x } : Trail).slot v =
      if v = l.var then x else t.slot v := by
  show (t.index v).bind (fun j => (t.slots.setIfInBounds i x)[j]?.join) = _
  split
  · next h =>
    subst h
    have := index_lt hs hi
    simp [hi, Array.getElem?_setIfInBounds_self_of_lt (show i < t.slots.size by omega)]
  · next h =>
    rw [slot]
    cases hj : t.index v with
    | none => rfl
    | some j =>
      have hij : i ≠ j := by
        rintro rfl
        exact h (index_inj hs hj hi)
      simp [Array.getElem?_setIfInBounds_ne hij]

/-- What an assignment makes of a trail. -/
theorem push_eq_ok {r : Reason} (h : t.push l r = .ok t') :
    ∃ i, t.index l.var = some i ∧ t.slot l.var = none ∧
      t' = { t with
        slots := t.slots.setIfInBounds i (some ⟨l, t.level, r, t.size⟩)
        assigned := t.assigned.push l } := by
  unfold push at h
  split at h
  · cases h
  · next i hi =>
    split at h
    · cases h
    · next hn =>
      cases h
      exact ⟨i, hi, by simpa [slot, hi] using hn, rfl⟩

/-- A free variable of the trail can be assigned. -/
theorem exists_push (hs : Ascending.Sorted Var.id t.vars.toList) (hv : l.var ∈ t.vars)
    (hfree : t.slot l.var = none) (r : Reason) : ∃ t', t.push l r = .ok t' := by
  obtain ⟨i, hi⟩ := exists_index hs hv
  have hn : (t.slots[i]?.join.isSome) = false := by
    simpa [slot, hi] using congrArg Option.isSome hfree
  exact ⟨_, by simp [push, hi, hn]; rfl⟩

theorem exists_pushDecision (hs : Ascending.Sorted Var.id t.vars.toList) (hv : l.var ∈ t.vars)
    (hfree : t.slot l.var = none) : ∃ t', t.pushDecision l = .ok t' :=
  exists_push (t := { t with starts := t.starts.push t.size }) hs hv hfree .decision

/-- `t'` is `t` with one assignment more, made at the level that is current in `t'`. This level may
be new; then the assignment is its decision. -/
structure Appends (t : Trail) (l : Literal) (r : Reason) (t' : Trail) : Prop where
  vars : t'.vars = t.vars
  slots_size : t'.slots.size = t.slots.size
  assigned : t'.assigned = t.assigned.push l
  free : t.slot l.var = none
  slot : ∀ v, t'.slot v = if v = l.var then some ⟨l, t'.level, r, t.size⟩ else t.slot v
  starts : t'.starts = t.starts ∧ r ≠ .decision ∨
    t'.starts = t.starts.push t.size ∧ r = .decision

theorem appends_of_pushImplied (h : t.WellFormed) {r : ClauseRef}
    (hp : t.pushImplied l r = .ok t') : t.Appends l (.clause r) t' := by
  obtain ⟨i, hi, hfree, rfl⟩ := push_eq_ok hp
  exact ⟨rfl, by simp, rfl, hfree, slot_set h.sorted h.slots_size hi, .inl ⟨rfl, by simp⟩⟩

theorem appends_of_pushDecision (h : t.WellFormed) (hp : t.pushDecision l = .ok t') :
    t.Appends l .decision t' := by
  obtain ⟨i, hi, hfree, rfl⟩ := push_eq_ok hp
  exact ⟨rfl, by simp, rfl, hfree, slot_set h.sorted h.slots_size hi, .inr ⟨rfl, rfl⟩⟩

theorem level_of_pushDecision (hp : t.pushDecision l = .ok t') : t'.level = t.level + 1 := by
  obtain ⟨i, -, -, rfl⟩ := push_eq_ok hp
  simp [level]

namespace Appends

variable {r : Reason}

theorem size_eq (ha : t.Appends l r t') : t'.size = t.size + 1 := by
  simp [size, ha.assigned]

theorem level_le (ha : t.Appends l r t') : t.level ≤ t'.level := by
  rcases ha.starts with ⟨hst, -⟩ | ⟨hst, -⟩ <;> simp [level, hst]

theorem slot_self (ha : t.Appends l r t') : t'.slot l.var = some ⟨l, t'.level, r, t.size⟩ := by
  rw [ha.slot, if_pos rfl]

/-- The earlier assignments stay. -/
theorem slot_old (ha : t.Appends l r t') (hs : t.slot v = some s) : t'.slot v = some s := by
  have hv : v ≠ l.var := by
    rintro rfl
    rw [ha.free] at hs
    cases hs
  rwa [ha.slot, if_neg hv]

/-- Each slot is the new one or an earlier one. -/
theorem slot_cases (ha : t.Appends l r t') (hs : t'.slot v = some s) :
    v = l.var ∧ s = ⟨l, t'.level, r, t.size⟩ ∨ t.slot v = some s := by
  rw [ha.slot] at hs
  split at hs
  · next hv => exact .inl ⟨hv, (Option.some.inj hs).symm⟩
  · exact .inr hs

theorem start_old (ha : t.Appends l r t') {q : Nat} (hq : t.starts[k]? = some q) :
    t'.starts[k]? = some q := by
  obtain ⟨hk, -⟩ := Array.getElem?_eq_some_iff.mp hq
  rcases ha.starts with ⟨hst, -⟩ | ⟨hst, -⟩
  · rwa [hst]
  · rwa [hst, Array.getElem?_push_lt hk, ← Array.getElem?_eq_getElem hk]

/-- Each start is an earlier one, or that of the new level. -/
theorem start_cases (ha : t.Appends l r t') {q : Nat} (hq : t'.starts[k]? = some q) :
    k = t.level ∧ q = t.size ∧ r = .decision ∧ t'.level = t.level + 1 ∨
      t.starts[k]? = some q := by
  rcases ha.starts with ⟨hst, -⟩ | ⟨hst, hr⟩
  · rw [hst] at hq
    exact .inr hq
  · rw [hst, Array.getElem?_push] at hq
    split at hq
    · next hk => exact .inl ⟨hk, (Option.some.inj hq).symm, hr, by simp [level, hst]⟩
    · exact .inr hq

end Appends

namespace WellFormed

/-! ## Orders of assignments and levels -/

theorem slot_lt (h : t.WellFormed) (hs : t.slot v = some s) : s.position < t.size := by
  obtain rfl := h.literal_var hs
  have := h.assigned_iff.mpr ⟨s, hs, rfl, rfl⟩
  obtain ⟨hp, -⟩ := Array.getElem?_eq_some_iff.mp this
  exact hp

theorem eq_of_position (h : t.WellFormed) {s' : Slot} (hv : t.slot v = some s)
    (hw : t.slot w = some s') (hp : s.position = s'.position) : v = w ∧ s = s' := by
  obtain rfl := h.literal_var hv
  obtain rfl := h.literal_var hw
  have h1 := h.assigned_iff.mpr ⟨s, hv, rfl, rfl⟩
  have h2 := h.assigned_iff.mpr ⟨s', hw, rfl, rfl⟩
  rw [hp, h2] at h1
  rw [Option.some.inj h1] at hw ⊢
  exact ⟨rfl, Option.some.inj (hv.symm.trans hw)⟩

/-- Levels do not decrease in the order of assignments. -/
theorem level_mono (h : t.WellFormed) {s' : Slot} (hv : t.slot v = some s)
    (hw : t.slot w = some s') (hp : s.position ≤ s'.position) : s.level ≤ s'.level := by
  apply Nat.le_of_not_lt
  intro hlt
  have hle := h.level_le hv
  have hk : s'.level < t.starts.size := Nat.lt_of_lt_of_le hlt hle
  have hq := Array.getElem?_eq_getElem hk
  have h1 := (h.lt_level_iff hv hq).mp hlt
  have h2 := (h.lt_level_iff hw hq).mpr (Nat.le_trans h1 hp)
  exact Nat.lt_irrefl _ h2

theorem start_lt (h : t.WellFormed) {k q : Nat} (hq : t.starts[k]? = some q) : q < t.size := by
  obtain ⟨v, s, hs, rfl, -⟩ := h.start hq
  exact h.slot_lt hs

/-- Later levels begin later. -/
theorem start_mono (h : t.WellFormed) {j k p q : Nat} (hp : t.starts[j]? = some p)
    (hq : t.starts[k]? = some q) (hjk : j ≤ k) : p ≤ q := by
  obtain ⟨v, s, hs, rfl, hl⟩ := h.start hq
  exact (h.lt_level_iff hs hp).mp (by omega)

/-- The decision of a level is its only decision. -/
theorem decision_unique (h : t.WellFormed) {s' : Slot} (hv : t.slot v = some s)
    (hw : t.slot w = some s') (hd : s.reason = .decision) (hd' : s'.reason = .decision)
    (hl : s.level = s'.level) : v = w := by
  obtain ⟨j, hj⟩ := (h.decision_iff hv).mp hd
  obtain ⟨k, hk⟩ := (h.decision_iff hw).mp hd'
  obtain ⟨v', u, hu, hpu, hlu⟩ := h.start hj
  obtain ⟨w', u', hu', hpu', hlu'⟩ := h.start hk
  obtain ⟨rfl, rfl⟩ := h.eq_of_position hv hu hpu.symm
  obtain ⟨rfl, rfl⟩ := h.eq_of_position hw hu' hpu'.symm
  obtain rfl : j = k := by omega
  have hp : s.position = s'.position := Option.some.inj (hj.symm.trans hk)
  exact (h.eq_of_position hv hw hp).1

/-- Nothing of a level comes before its decision. -/
theorem position_le_of_decision (h : t.WellFormed) {s' : Slot} (hv : t.slot v = some s)
    (hd : s.reason = .decision) (hw : t.slot w = some s') (hl : s.level ≤ s'.level) :
    s.position ≤ s'.position := by
  obtain ⟨k, hk⟩ := (h.decision_iff hv).mp hd
  have := (h.lt_level_iff hv hk).mpr (Nat.le_refl _)
  exact (h.lt_level_iff hw hk).mp (by omega)

/-- A decision is above the root level. -/
theorem level_pos_of_decision (h : t.WellFormed) (hv : t.slot v = some s)
    (hd : s.reason = .decision) : 0 < s.level := by
  obtain ⟨k, hk⟩ := (h.decision_iff hv).mp hd
  have := (h.lt_level_iff hv hk).mpr (Nat.le_refl _)
  omega

/-! ## Assignments keep the trail well formed -/

theorem empty {vs : Array Var} (hs : Ascending.Sorted Var.id vs.toList) :
    (Trail.empty vs).WellFormed where
  sorted := hs
  slots_size := by simp [Trail.empty]
  literal_var h := by simp at h
  assigned_iff := by
    intro p l
    rw [slot_empty]
    simp [Trail.empty]
  level_le h := by simp at h
  lt_level_iff h := by simp at h
  start h := by simp [Trail.empty] at h
  decision_iff h := by simp at h

section Appends

variable {r : Reason}

private theorem append_assigned_iff (h : t.WellFormed) (ha : t.Appends l r t') {p : Nat}
    {m : Literal} : t'.assigned[p]? = some m ↔
      ∃ s, t'.slot m.var = some s ∧ s.literal = m ∧ s.position = p := by
  rw [ha.assigned, Array.getElem?_push]
  constructor
  · intro hm
    split at hm
    · next hp =>
      obtain rfl := Option.some.inj hm
      exact ⟨_, ha.slot_self, rfl, hp.symm⟩
    · obtain ⟨s, hs, hl, hpos⟩ := h.assigned_iff.mp hm
      exact ⟨s, ha.slot_old hs, hl, hpos⟩
  · rintro ⟨s, hs, rfl, rfl⟩
    rcases ha.slot_cases hs with ⟨-, rfl⟩ | hs
    · exact if_pos rfl
    · have hne : s.position ≠ t.assigned.size := Nat.ne_of_lt (h.slot_lt hs)
      rw [if_neg hne]
      exact h.assigned_iff.mpr ⟨s, hs, rfl, rfl⟩

private theorem append_lt_level_iff (h : t.WellFormed) (ha : t.Appends l r t') {q : Nat}
    (hs : t'.slot v = some s) (hq : t'.starts[k]? = some q) : k < s.level ↔ q ≤ s.position := by
  obtain ⟨hk, -⟩ := Array.getElem?_eq_some_iff.mp hq
  rcases ha.slot_cases hs with ⟨rfl, rfl⟩ | hs
  · rcases ha.start_cases hq with ⟨-, rfl, -, -⟩ | hq
    · exact ⟨fun _ => Nat.le_refl _, fun _ => hk⟩
    · exact ⟨fun _ => Nat.le_of_lt (h.start_lt hq), fun _ => hk⟩
  · rcases ha.start_cases hq with ⟨rfl, rfl, -, -⟩ | hq
    · have hl := h.level_le hs
      have hp := h.slot_lt hs
      omega
    · exact h.lt_level_iff hs hq

private theorem append_decision_iff (h : t.WellFormed) (ha : t.Appends l r t')
    (hs : t'.slot v = some s) :
    s.reason = .decision ↔ ∃ k : Nat, t'.starts[k]? = some s.position := by
  rcases ha.slot_cases hs with ⟨rfl, rfl⟩ | hs
  · constructor
    · rintro rfl
      rcases ha.starts with ⟨-, hne⟩ | ⟨hst, -⟩
      · exact absurd rfl hne
      · exact ⟨t.starts.size, by simp [hst]⟩
    · rintro ⟨k, hk⟩
      rcases ha.start_cases hk with ⟨-, -, hr, -⟩ | hk
      · exact hr
      · exact absurd (h.start_lt hk) (Nat.lt_irrefl _)
  · rw [h.decision_iff hs]
    constructor
    · exact fun ⟨k, hk⟩ => ⟨k, ha.start_old hk⟩
    · rintro ⟨k, hk⟩
      rcases ha.start_cases hk with ⟨-, hpos, -, -⟩ | hk
      · exact absurd hpos (Nat.ne_of_lt (h.slot_lt hs))
      · exact ⟨k, hk⟩

/-- An assignment keeps the trail well formed. -/
theorem append (h : t.WellFormed) (ha : t.Appends l r t') : t'.WellFormed where
  sorted := by
    rw [ha.vars]
    exact h.sorted
  slots_size := by rw [ha.vars, ha.slots_size, h.slots_size]
  literal_var hs := by
    rcases ha.slot_cases hs with ⟨rfl, rfl⟩ | hs
    · rfl
    · exact h.literal_var hs
  assigned_iff := h.append_assigned_iff ha
  level_le hs := by
    rcases ha.slot_cases hs with ⟨-, rfl⟩ | hs
    · exact Nat.le_refl _
    · exact Nat.le_trans (h.level_le hs) ha.level_le
  lt_level_iff := h.append_lt_level_iff ha
  start hq := by
    rcases ha.start_cases hq with ⟨rfl, rfl, -, hl⟩ | hq
    · exact ⟨l.var, _, ha.slot_self, rfl, hl⟩
    · obtain ⟨v, s, hs, hpos, hl⟩ := h.start hq
      exact ⟨v, s, ha.slot_old hs, hpos, hl⟩
  decision_iff := h.append_decision_iff ha

end Appends

end WellFormed

/-! ## Undoing assignments -/

private theorem getElem?_take {α : Type} (xs : Array α) (n i : Nat) :
    (xs.take n)[i]? = if i < n then xs[i]? else none := by
  rw [← Array.getElem?_toList, Array.take_eq_extract, Array.toList_extract,
    List.extract_eq_drop_take']
  simp [List.getElem?_take]

/-- Emptying the slots of some literals empties exactly those. -/
theorem getElem?_slotsWithout (t : Trail) (ls : List Literal) (i : Nat) :
    (t.slotsWithout ls)[i]?.join =
      if ∃ l ∈ ls, t.index l.var = some i then none else t.slots[i]?.join := by
  unfold slotsWithout
  generalize t.slots = slots
  induction ls generalizing slots with
  | nil => simp
  | cons l ls ih =>
    rw [List.foldl_cons, ih]
    by_cases hls : ∃ m ∈ ls, t.index m.var = some i
    · obtain ⟨m, hm, hi⟩ := hls
      rw [if_pos ⟨m, hm, hi⟩, if_pos ⟨m, List.mem_cons_of_mem l hm, hi⟩]
    rw [if_neg hls]
    by_cases hl : t.index l.var = some i
    · rw [if_pos ⟨l, List.mem_cons_self, hl⟩]
      simp only [hl, Array.getElem?_setIfInBounds, ↓reduceIte]
      split <;> rfl
    · have : ¬∃ m ∈ l :: ls, t.index m.var = some i := by
        rintro ⟨m, hm, hi⟩
        rcases List.mem_cons.mp hm with rfl | hm
        · exact hl hi
        · exact hls ⟨m, hm, hi⟩
      rw [if_neg this]
      split
      · next j hj =>
        have hji : j ≠ i := by
          rintro rfl
          exact hl hj
        rw [Array.getElem?_setIfInBounds_ne hji]
      · rfl

@[simp] theorem size_slotsWithout (t : Trail) (ls : List Literal) :
    (t.slotsWithout ls).size = t.slots.size := by
  unfold slotsWithout
  generalize t.slots = slots
  induction ls generalizing slots with
  | nil => rfl
  | cons l ls ih =>
    rw [List.foldl_cons, ih]
    split
    · rw [Array.size_setIfInBounds]
    · rfl

/-- Truncation keeps the slots of the assignments that stay. -/
theorem slot_truncate (h : t.WellFormed) (n m : Nat) (v : Var) :
    (t.truncate n m).slot v = (t.slot v).filter (·.position < n) := by
  have hidx : (t.truncate n m).index v = t.index v := rfl
  have hslots : (t.truncate n m).slots = t.slotsWithout (t.assigned.toList.drop n) := rfl
  rw [slot, hidx, hslots, slot]
  cases hi : t.index v with
  | none => rfl
  | some i =>
    rw [Option.bind_some, Option.bind_some, getElem?_slotsWithout]
    have hslot : t.slot v = t.slots[i]?.join := by rw [slot, hi, Option.bind_some]
    cases hs : t.slots[i]?.join with
    | none => simp
    | some s =>
      rw [hs] at hslot
      obtain rfl := h.literal_var hslot
      have hpos := h.assigned_iff.mpr ⟨s, hslot, rfl, rfl⟩
      have hdrop : (∃ l ∈ t.assigned.toList.drop n, t.index l.var = some i) ↔ n ≤ s.position := by
        constructor
        · rintro ⟨l, hl, hli⟩
          obtain ⟨j, hj⟩ := List.mem_iff_getElem?.mp hl
          rw [List.getElem?_drop, Array.getElem?_toList] at hj
          obtain ⟨s', hs', -, hp⟩ := h.assigned_iff.mp hj
          rw [index_inj h.sorted hli hi, hslot] at hs'
          obtain rfl := Option.some.inj hs'
          omega
        · intro hn
          refine ⟨s.literal, List.mem_iff_getElem?.mpr ⟨s.position - n, ?_⟩, hi⟩
          rw [List.getElem?_drop, Array.getElem?_toList, Nat.add_sub_cancel' hn]
          exact hpos
      by_cases hn : n ≤ s.position
      · rw [if_pos (hdrop.mpr hn)]
        simp [Option.filter_some, Nat.not_lt.mpr hn]
      · rw [if_neg (mt hdrop.mp hn)]
        simp [Option.filter_some, Nat.lt_of_not_le hn]

theorem backtrack_eq_self (hk : t.level ≤ k) : t.backtrack k = t := by
  have : t.starts[k]? = none := Array.getElem?_eq_none hk
  simp [backtrack, this]

theorem backtrack_eq_truncate {q : Nat} (hq : t.starts[k]? = some q) :
    t.backtrack k = t.truncate q k := by
  simp [backtrack, hq]

/-- The assignments above the level are gone and the others stay. -/
theorem slot_backtrack (h : t.WellFormed) (k : Nat) (v : Var) :
    (t.backtrack k).slot v = (t.slot v).filter (·.level ≤ k) := by
  cases hq : t.starts[k]? with
  | none =>
    have hk : t.level ≤ k := Array.getElem?_eq_none_iff.mp hq
    rw [backtrack_eq_self hk]
    cases hs : t.slot v with
    | none => rfl
    | some s =>
      have := h.level_le hs
      simp [Option.filter_some, Nat.le_trans this hk]
  | some q =>
    rw [backtrack_eq_truncate hq, slot_truncate h]
    cases hs : t.slot v with
    | none => rfl
    | some s =>
      have := h.lt_level_iff hs hq
      simp only [Option.filter_some]
      congr 2
      simp only [decide_eq_decide]
      omega

theorem slot_backtrack_eq_some_iff (h : t.WellFormed) :
    (t.backtrack k).slot v = some s ↔ t.slot v = some s ∧ s.level ≤ k := by
  rw [slot_backtrack h, Option.filter_eq_some_iff, decide_eq_true_iff]

/-- Undoing further levels leaves the slots that undoing them at once does. -/
theorem slot_backtrack_backtrack (h : t.WellFormed) (hw : (t.backtrack k).WellFormed) {j : Nat}
    (hjk : j ≤ k) (v : Var) : ((t.backtrack k).backtrack j).slot v = (t.backtrack j).slot v := by
  apply Option.ext
  intro s
  rw [slot_backtrack_eq_some_iff hw, slot_backtrack_eq_some_iff h, slot_backtrack_eq_some_iff h]
  exact ⟨fun ⟨⟨hs, _⟩, hj⟩ => ⟨hs, hj⟩, fun ⟨hs, hj⟩ => ⟨⟨hs, Nat.le_trans hj hjk⟩, hj⟩⟩

@[simp] theorem vars_backtrack (t : Trail) (k : Nat) : (t.backtrack k).vars = t.vars := by
  unfold backtrack
  split <;> rfl

theorem level_backtrack (t : Trail) (k : Nat) : (t.backtrack k).level = min k t.level := by
  unfold backtrack
  split
  · next q hq =>
    obtain ⟨hk, -⟩ := Array.getElem?_eq_some_iff.mp hq
    simp [truncate, level]
  · next hq =>
    have : t.starts.size ≤ k := Array.getElem?_eq_none_iff.mp hq
    simp only [level]
    omega

theorem starts_backtrack (t : Trail) (k j : Nat) :
    (t.backtrack k).starts[j]? = if j < k then t.starts[j]? else none := by
  unfold backtrack
  split
  · exact getElem?_take _ _ _
  · next hq =>
    split
    · rfl
    · next hj =>
      have : t.starts.size ≤ k := Array.getElem?_eq_none_iff.mp hq
      exact Array.getElem?_eq_none (by omega)

theorem size_backtrack (h : t.WellFormed) {q : Nat} (hq : t.starts[k]? = some q) :
    (t.backtrack k).size = q := by
  have := h.start_lt hq
  simp only [size] at this
  rw [backtrack_eq_truncate hq]
  simp [truncate, size]
  omega

/-- What is left of the trail is what is left of its slots. -/
private theorem assigned_backtrack_iff (h : t.WellFormed) {q p : Nat} (hq : t.starts[k]? = some q) :
    (t.backtrack k).assigned[p]? = some l ↔
      ∃ s, (t.backtrack k).slot l.var = some s ∧ s.literal = l ∧ s.position = p := by
  have htake : (t.backtrack k).assigned[p]? = if p < q then t.assigned[p]? else none := by
    rw [backtrack_eq_truncate hq]
    exact getElem?_take _ _ _
  have hlevel : ∀ {v s}, t.slot v = some s → (s.level ≤ k ↔ s.position < q) := by
    intro v s hs
    have := h.lt_level_iff hs hq
    omega
  rw [htake]
  constructor
  · intro hl
    split at hl
    · next hp =>
      obtain ⟨s, hs, hsl, rfl⟩ := h.assigned_iff.mp hl
      exact ⟨s, (slot_backtrack_eq_some_iff h).mpr ⟨hs, (hlevel hs).mpr hp⟩, hsl, rfl⟩
    · cases hl
  · rintro ⟨s, hs, hsl, rfl⟩
    obtain ⟨hs, hle⟩ := (slot_backtrack_eq_some_iff h).mp hs
    rw [if_pos ((hlevel hs).mp hle)]
    exact h.assigned_iff.mpr ⟨s, hs, hsl, rfl⟩

namespace WellFormed

/-- Undoing levels keeps the trail well formed. -/
theorem backtrack (h : t.WellFormed) (k : Nat) : (t.backtrack k).WellFormed := by
  cases hq : t.starts[k]? with
  | none =>
    rw [backtrack_eq_self (Array.getElem?_eq_none_iff.mp hq)]
    exact h
  | some q =>
    obtain ⟨hk, -⟩ := Array.getElem?_eq_some_iff.mp hq
    have hslot : ∀ {v s}, (t.backtrack k).slot v = some s ↔ t.slot v = some s ∧ s.level ≤ k :=
      slot_backtrack_eq_some_iff h
    have hstart : ∀ {j p : Nat}, (t.backtrack k).starts[j]? = some p →
        j < k ∧ t.starts[j]? = some p := by
      intro j p hp
      rw [starts_backtrack] at hp
      split at hp
      · next hj => exact ⟨hj, hp⟩
      · cases hp
    refine ⟨by rw [vars_backtrack]; exact h.sorted, ?_, fun hs => h.literal_var (hslot.mp hs).1, ?_,
      ?_, ?_, ?_, ?_⟩
    · rw [vars_backtrack, backtrack_eq_truncate hq]
      simpa [truncate] using h.slots_size
    · intro p l
      exact assigned_backtrack_iff h hq
    · intro v s hs
      obtain ⟨hs, hle⟩ := hslot.mp hs
      rw [level_backtrack]
      exact Nat.le_min.mpr ⟨hle, h.level_le hs⟩
    · intro v s j p hs hp
      exact h.lt_level_iff (hslot.mp hs).1 (hstart hp).2
    · intro j p hp
      obtain ⟨hj, hp⟩ := hstart hp
      obtain ⟨v, s, hs, hpos, hl⟩ := h.start hp
      exact ⟨v, s, hslot.mpr ⟨hs, by omega⟩, hpos, hl⟩
    · intro v s hs
      obtain ⟨hs, hle⟩ := hslot.mp hs
      rw [h.decision_iff hs]
      constructor
      · rintro ⟨j, hj⟩
        have := (h.lt_level_iff hs hj).mpr (Nat.le_refl _)
        refine ⟨j, ?_⟩
        rwa [starts_backtrack, if_pos (by omega)]
      · exact fun ⟨j, hj⟩ => ⟨j, (hstart hj).2⟩

end WellFormed

/-- A reset undoes everything. -/
theorem reset_eq_empty (h : t.WellFormed) : t.reset = empty t.vars := by
  have hb := h.backtrack 0
  have hslot : ∀ v, t.reset.slot v = none := by
    intro v
    rw [reset, slot_truncate hb]
    cases (t.backtrack 0).slot v <;> simp
  have hvars : t.reset.vars = t.vars := vars_backtrack t 0
  have hslots : t.reset.slots = Array.replicate t.vars.size none := by
    have hsize : t.reset.slots.size = t.vars.size := by
      rw [← vars_backtrack t 0, ← hb.slots_size]
      simp [reset, truncate]
    apply Array.ext
    · rw [hsize, Array.size_replicate]
    · intro i hi _
      have hv : i < t.vars.size := by omega
      have hidx : t.reset.index t.vars[i] = some i := by
        rw [index_congr hvars, index_eq_some_iff h.sorted]
        exact Array.getElem?_eq_getElem hv
      have hnone := hslot t.vars[i]
      rw [slot, hidx, Option.bind_some, Array.getElem?_eq_getElem hi, Option.join_some] at hnone
      rw [hnone, Array.getElem_replicate]
  have hassigned : t.reset.assigned = #[] := by simp [reset, truncate]
  have hstarts : t.reset.starts = #[] := by simp [reset, truncate]
  calc t.reset = ⟨t.reset.vars, t.reset.slots, t.reset.assigned, t.reset.starts⟩ := rfl
    _ = empty t.vars := by rw [hvars, hslots, hassigned, hstarts]; rfl

/-! ## Counting assignments -/

/-- The assigned variables, in the order of their assignments. -/
def assignedVars (t : Trail) : List Var := t.assigned.toList.map Literal.var

theorem length_assignedVars (t : Trail) : t.assignedVars.length = t.size := by
  simp [assignedVars, size]

namespace WellFormed

theorem mem_assignedVars (h : t.WellFormed) : v ∈ t.assignedVars ↔ ∃ s, t.slot v = some s := by
  rw [assignedVars, List.mem_map]
  constructor
  · rintro ⟨l, hl, rfl⟩
    obtain ⟨p, hp⟩ := Array.mem_iff_getElem?.mp (Array.mem_toList_iff.mp hl)
    obtain ⟨s, hs, -, -⟩ := h.assigned_iff.mp hp
    exact ⟨s, hs⟩
  · rintro ⟨s, hs⟩
    obtain rfl := h.literal_var hs
    have := h.assigned_iff.mpr ⟨s, hs, rfl, rfl⟩
    exact ⟨s.literal, Array.mem_toList_iff.mpr (Array.mem_of_getElem? this), rfl⟩

theorem nodup_assignedVars (h : t.WellFormed) : t.assignedVars.Nodup := by
  rw [assignedVars, List.Nodup, List.pairwise_map, List.pairwise_iff_getElem]
  intro i j hi hj hij heq
  obtain ⟨s, hs, -, hp⟩ := h.assigned_iff.mp (Array.getElem?_eq_getElem hi)
  obtain ⟨s', hs', -, hp'⟩ := h.assigned_iff.mp (Array.getElem?_eq_getElem hj)
  simp only [Array.getElem_toList] at heq
  rw [heq, hs'] at hs
  obtain rfl := Option.some.inj hs
  omega

theorem nodup_vars (h : t.WellFormed) : t.vars.toList.Nodup :=
  h.sorted.imp fun hlt heq => by
    rw [heq] at hlt
    exact Nat.lt_irrefl _ hlt

theorem assignedVars_subset (h : t.WellFormed) : t.assignedVars ⊆ t.vars.toList := by
  intro v hv
  obtain ⟨s, hs⟩ := h.mem_assignedVars.mp hv
  exact Array.mem_toList_iff.mpr (mem_vars_of_slot hs)

theorem size_le (h : t.WellFormed) : t.size ≤ t.vars.size := by
  have := (List.subperm_of_subset h.nodup_assignedVars h.assignedVars_subset).length_le
  rwa [length_assignedVars, Array.length_toList] at this

/-- A trail as long as its list of variables assigns all of them. -/
theorem size_eq_iff (h : t.WellFormed) :
    t.size = t.vars.size ↔ ∀ v ∈ t.vars, ∃ s, t.slot v = some s := by
  constructor
  · intro hsize v hv
    have hsub := List.subperm_of_subset h.nodup_assignedVars h.assignedVars_subset
    have hlen : t.vars.toList.length = t.assignedVars.length := by
      rw [length_assignedVars, Array.length_toList, hsize]
    have hperm := hsub.perm_of_length_le (Nat.le_of_eq hlen)
    exact h.mem_assignedVars.mp (hperm.mem_iff.mpr (Array.mem_toList_iff.mpr hv))
  · intro hall
    apply Nat.le_antisymm h.size_le
    have hsub : t.vars.toList ⊆ t.assignedVars := fun v hv =>
      h.mem_assignedVars.mpr (hall v (Array.mem_toList_iff.mp hv))
    have := (List.subperm_of_subset h.nodup_vars hsub).length_le
    rwa [length_assignedVars, Array.length_toList] at this

end WellFormed

end Trail

end ClauseLearning
