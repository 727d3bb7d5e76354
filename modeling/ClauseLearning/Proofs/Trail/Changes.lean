import ClauseLearning.Proofs.Trail.Levels

/-!
# Histories of a trail

A trail changes by decisions, implied literals, returns to a level and resets (`Trail.Change`).
Whatever sequence of them leads to a trail (`Trail.run`), its slots, its order of assignments and
its decisions tell the same story: `Trail.Consistent`, `Trail.run_consistent`.

* `WellFormed.exists_apply`: a change that is allowed can be made.
* `WellFormed.apply`, `WellFormed.exists_run`: one change keeps the trail well formed, so a sequence
  does.
-/

namespace ClauseLearning

namespace Trail

/-- What can be done to a trail. -/
inductive Change where
  | decide (l : Literal)
  | imply (l : Literal) (r : ClauseRef)
  | backtrack (level : Nat)
  | reset
deriving DecidableEq

namespace Change

/-- The trail after the change. -/
def apply (t : Trail) : Change → Except Fault Trail
  | .decide l => t.pushDecision l
  | .imply l r => t.pushImplied l r
  | .backtrack k => .ok (t.backtrack k)
  | .reset => .ok t.reset

/-- Only a free variable of the trail may be assigned; undoing is always allowed. -/
def Allowed (t : Trail) : Change → Prop
  | .decide l | .imply l _ => l.var ∈ t.vars ∧ t.isAssigned l.var = false
  | .backtrack _ | .reset => True

instance (t : Trail) : DecidablePred (Allowed t)
  | .decide l | .imply l _ =>
    inferInstanceAs (Decidable (l.var ∈ t.vars ∧ t.isAssigned l.var = false))
  | .backtrack _ | .reset => .isTrue trivial

end Change

/-- Makes the changes one after the other. -/
def run (t : Trail) : List Change → Except Fault Trail
  | [] => .ok t
  | c :: cs => do
    let t' ← c.apply t
    t'.run cs

/-- Each change is allowed on the trail that the earlier ones lead to. -/
def Permits (t : Trail) : List Change → Prop
  | [] => True
  | c :: cs => c.Allowed t ∧ ∀ t', c.apply t = .ok t' → t'.Permits cs

instance decidablePermits : (t : Trail) → (cs : List Change) → Decidable (t.Permits cs)
  | _, [] => .isTrue trivial
  | t, c :: cs =>
    match hc : c.apply t with
    | .ok t' =>
      have := decidablePermits t' cs
      decidable_of_iff (c.Allowed t ∧ t'.Permits cs) (by simp [Permits, hc])
    | .error _ => decidable_of_iff (c.Allowed t) (by simp [Permits, hc])

variable {t t' : Trail} {v w : Var} {l m : Literal} {s s' : Slot} {c : Change} {cs : List Change}

/-! ## What changes keep -/

theorem WellFormed.apply (h : t.WellFormed) (hc : c.apply t = .ok t') : t'.WellFormed := by
  cases c with
  | decide l => exact h.append (appends_of_pushDecision h hc)
  | imply l r => exact h.append (appends_of_pushImplied h hc)
  | backtrack k =>
    obtain rfl := Except.ok.inj hc
    exact h.backtrack k
  | reset =>
    obtain rfl := Except.ok.inj hc
    rw [reset_eq_empty h]
    exact .empty h.sorted

/-- A change that is allowed can be made. -/
theorem WellFormed.exists_apply (h : t.WellFormed) (hc : c.Allowed t) :
    ∃ t', c.apply t = .ok t' := by
  cases c with
  | decide l => exact exists_pushDecision h.sorted hc.1 (isAssigned_eq_false_iff.mp hc.2)
  | imply l r => exact exists_push h.sorted hc.1 (isAssigned_eq_false_iff.mp hc.2) _
  | backtrack k => exact ⟨_, rfl⟩
  | reset => exact ⟨_, rfl⟩

/-- Allowed changes lead from a well-formed trail to another one. -/
theorem WellFormed.exists_run (h : t.WellFormed) (hcs : t.Permits cs) :
    ∃ t', t.run cs = .ok t' ∧ t'.WellFormed := by
  induction cs generalizing t with
  | nil => exact ⟨t, rfl, h⟩
  | cons c cs ih =>
    obtain ⟨t₁, h₁⟩ := h.exists_apply hcs.1
    obtain ⟨t', ht', hw⟩ := ih (h.apply h₁) (hcs.2 t₁ h₁)
    refine ⟨t', ?_, hw⟩
    rw [run, h₁]
    exact ht'

/-! ## What a history leaves -/

/-- The slots, the order of assignments and the decisions of a trail tell the same story. -/
structure Consistent (t : Trail) : Prop where
  /-- A variable is on the trail once if it has a slot, and not at all otherwise. -/
  count_var : ∀ v, t.assigned.toList.countP (·.var == v) = if (t.slot v).isSome then 1 else 0
  /-- A slot points to the entry of its variable. -/
  entry : ∀ v s, t.slot v = some s →
    s.literal.var = v ∧ t.assigned[s.position]? = some s.literal
  /-- Every literal of the trail has a level, and these do not decrease along the trail. -/
  level_le : ∀ l ∈ t.assigned, ∃ n ≤ t.level, t.levelOf l.var = some n
  levels : (t.assigned.toList.filterMap (t.levelOf ·.var)).Pairwise (· ≤ ·)
  length_decisions : t.decisions.length = t.level
  /-- The decisions are the first literals of the levels above the root. -/
  decision : ∀ i, t.decisions[i]? = t.assigned.toList.find? (t.levelOf ·.var == some (i + 1))
  reason_iff : ∀ l ∈ t.assigned, t.reason l.var = some .decision ↔ l ∈ t.decisions
  /-- The root level has no decision. -/
  root : ∀ l ∈ t.assigned, t.levelOf l.var = some 0 → t.reason l.var ≠ some .decision
  value_true_iff : ∀ l, t.value l = some true ↔ l ∈ t.assigned
  value_false_iff : ∀ l, t.value l = some false ↔ l.negate ∈ t.assigned
  value_none_iff : ∀ l, t.value l = none ↔ l ∉ t.assigned ∧ l.negate ∉ t.assigned

namespace WellFormed

theorem exists_slot_of_mem (h : t.WellFormed) (hl : l ∈ t.assigned) :
    ∃ s, t.slot l.var = some s ∧ s.literal = l :=
  value_eq_true_iff.mp (h.mem_assigned_iff.mp hl)

theorem countP_var (h : t.WellFormed) (v : Var) :
    t.assigned.toList.countP (·.var == v) = if (t.slot v).isSome then 1 else 0 := by
  have hcount : t.assigned.toList.countP (·.var == v) = t.assignedVars.count v := by
    rw [assignedVars, List.count, List.countP_map]
    rfl
  have hmem : v ∈ t.assignedVars ↔ (t.slot v).isSome := by
    rw [h.mem_assignedVars, Option.isSome_iff_exists]
  rw [hcount, h.nodup_assignedVars.count]
  exact if_congr hmem rfl rfl

theorem pairwise_levels (h : t.WellFormed) :
    (t.assigned.toList.filterMap (t.levelOf ·.var)).Pairwise (· ≤ ·) := by
  rw [List.pairwise_filterMap, List.pairwise_iff_getElem]
  intro p q hp hq hpq i hi j hj
  obtain ⟨s, hs, -, rfl⟩ := h.assigned_iff.mp (Array.getElem?_eq_getElem hp)
  obtain ⟨s', hs', -, rfl⟩ := h.assigned_iff.mp (Array.getElem?_eq_getElem hq)
  obtain rfl : s.level = i := by simpa [levelOf, hs] using hi
  obtain rfl : s'.level = j := by simpa [levelOf, hs'] using hj
  exact h.level_mono hs hs' (Nat.le_of_lt hpq)

/-- Nothing of a level comes before its decision, so the decision is found first. -/
theorem getElem?_decisions_eq_find? (h : t.WellFormed) (i : Nat) :
    t.decisions[i]? = t.assigned.toList.find? (t.levelOf ·.var == some (i + 1)) := by
  cases hd : t.decisions[i]? with
  | some l =>
    obtain ⟨s, hs, rfl, hreason, hlevel⟩ := h.getElem?_decisions_eq_some_iff.mp hd
    have hpos := h.assigned_iff.mpr ⟨s, hs, rfl, rfl⟩
    obtain ⟨hlt, hget⟩ := Array.getElem?_eq_some_iff.mp hpos
    refine (List.find?_eq_some_iff_getElem.mpr ⟨?_, s.position, hlt, hget, fun j hj => ?_⟩).symm
    · simp [levelOf, hs, hlevel]
    · have hjlt : j < t.assigned.size := Nat.lt_trans hj hlt
      obtain ⟨s', hs', -, rfl⟩ := h.assigned_iff.mp (Array.getElem?_eq_getElem hjlt)
      have hne : s'.level ≠ i + 1 := fun hl => by
        have := h.position_le_of_decision hs hreason hs' (by omega)
        omega
      simp [levelOf, hs', hne]
  | none =>
    have hi : t.level ≤ i := by
      rw [← h.length_decisions]
      exact List.getElem?_eq_none_iff.mp hd
    refine (List.find?_eq_none.mpr fun l hl => ?_).symm
    obtain ⟨s, hs, -⟩ := h.exists_slot_of_mem (Array.mem_toList_iff.mp hl)
    have hle := h.level_le hs
    have hne : s.level ≠ i + 1 := by omega
    simp [levelOf, hs, hne]

theorem mem_decisions_iff (h : t.WellFormed) (hs : t.slot l.var = some s) (hl : s.literal = l) :
    l ∈ t.decisions ↔ s.reason = .decision := by
  rw [List.mem_iff_getElem?]
  constructor
  · rintro ⟨i, hi⟩
    obtain ⟨s', hs', -, hreason, -⟩ := h.getElem?_decisions_eq_some_iff.mp hi
    rwa [Option.some.inj (hs.symm.trans hs')]
  · intro hreason
    have hpos := h.level_pos_of_decision hs hreason
    exact ⟨s.level - 1, h.getElem?_decisions_eq_some_iff.mpr ⟨s, hs, hl, hreason, by omega⟩⟩

theorem consistent (h : t.WellFormed) : t.Consistent where
  count_var := h.countP_var
  entry v s hs := by
    obtain rfl := h.literal_var hs
    exact ⟨rfl, h.assigned_iff.mpr ⟨s, hs, rfl, rfl⟩⟩
  level_le l hl := by
    obtain ⟨s, hs, -⟩ := h.exists_slot_of_mem hl
    exact ⟨s.level, h.level_le hs, by simp [levelOf, hs]⟩
  levels := h.pairwise_levels
  length_decisions := h.length_decisions
  decision := h.getElem?_decisions_eq_find?
  reason_iff l hl := by
    obtain ⟨s, hs, hlit⟩ := h.exists_slot_of_mem hl
    simp [reason, hs, h.mem_decisions_iff hs hlit]
  root l hl hroot hreason := by
    obtain ⟨s, hs, -⟩ := h.exists_slot_of_mem hl
    have hlevel : s.level = 0 := by simpa [levelOf, hs] using hroot
    have hpos := h.level_pos_of_decision hs (by simpa [reason, hs] using hreason)
    omega
  value_true_iff l := h.mem_assigned_iff.symm
  value_false_iff l := by rw [h.value_eq_false_iff_negate, h.mem_assigned_iff]
  value_none_iff l := by
    rw [h.mem_assigned_iff, h.mem_assigned_iff, ← h.value_eq_false_iff_negate]
    rcases t.value l with _ | _ | _ <;> simp

end WellFormed

/-- Whatever allowed changes are made to an empty trail over ascending variables, they succeed and
leave a consistent trail. -/
theorem run_consistent {vs : Array Var} (hs : Ascending.Sorted Var.id vs.toList) :
    ∃ t₀, ofVariables vs = .ok t₀ ∧
      ∀ cs, t₀.Permits cs → ∃ t, t₀.run cs = .ok t ∧ t.Consistent := by
  refine ⟨empty vs, if_pos hs, fun cs hcs => ?_⟩
  obtain ⟨t, ht, hw⟩ := (WellFormed.empty hs).exists_run hcs
  exact ⟨t, ht, hw.consistent⟩

/-- Assignments at the root and above it, undone by a reset and by returns to two levels, on sparse
variables. -/
def winding : List Change :=
  let x : Nat → Bool → Literal := fun n b => ⟨⟨n + 1, n.succ_pos⟩, b⟩
  [.decide (x 90 true), .reset, .imply (x 6 false) ⟨0⟩, .decide (x 2 true), .imply (x 90 true) ⟨1⟩,
    .backtrack 0, .decide (x 90 false), .decide (x 2 true), .backtrack 1, .imply (x 2 false) ⟨2⟩]

/-- After its detours a literal of the root, a decision and an implied literal are left. -/
theorem winding_consistent :
    let vs : Array Var := #[⟨3, by decide⟩, ⟨7, by decide⟩, ⟨91, by decide⟩]
    Ascending.Sorted Var.id vs.toList ∧ (empty vs).Permits winding ∧
      ∃ t, (empty vs).run winding = .ok t ∧ t.assigned.map Literal.toInt = #[-7, -91, -3] ∧
        t.Consistent := by
  intro vs
  have hs : Ascending.Sorted Var.id vs.toList := by decide
  have hallowed : (empty vs).Permits winding := by decide +kernel
  have hrun : ((empty vs).run winding).map (·.assigned.map Literal.toInt) = .ok #[-7, -91, -3] := by
    decide +kernel
  obtain ⟨t₀, ht₀, hall⟩ := run_consistent hs
  obtain rfl : empty vs = t₀ := Except.ok.inj ((if_pos hs).symm.trans ht₀)
  obtain ⟨t, ht, hconsistent⟩ := hall winding hallowed
  rw [ht] at hrun
  exact ⟨hs, hallowed, t, ht, Except.ok.inj hrun, hconsistent⟩

end Trail

end ClauseLearning
