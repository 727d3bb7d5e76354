import ClauseLearning.Proofs.Trail.WellFormed

/-!
# Clauses under a trail

What the status of a clause means (`Clause.status_spec`): under a trail a clause is true, forces a
literal (`Trail.Forces`), is falsified (`Trail.Falsifies`), or has several unassigned literals. A
clause that neither forces nor is falsified is settled (`Trail.Settles`).

* `Trail.Appends.value_old`, `Trail.value_backtrack_eq_some_iff`: truth values under a changed
  trail.
* `Trail.Settles.congr`: these notions depend on the slots alone.
-/

namespace ClauseLearning

namespace Trail

variable {t t' : Trail} {v : Var} {l m : Literal} {s : Slot} {c : Clause} {k : Nat}

/-! ## Truth values -/

theorem value_eq_none_iff : t.value l = none ↔ t.slot l.var = none := by
  simp [value, assignment]

theorem value_eq_true_iff : t.value l = some true ↔ ∃ s, t.slot l.var = some s ∧ s.literal = l := by
  simp [value, assignment]

theorem WellFormed.value_eq_false_iff (h : t.WellFormed) :
    t.value l = some false ↔ ∃ s, t.slot l.var = some s ∧ s.literal = l.negate := by
  constructor
  · intro hv
    cases hs : t.slot l.var with
    | none => simp [value_eq_none_iff.mpr hs] at hv
    | some s =>
      refine ⟨s, rfl, (Literal.eq_or_eq_negate (h.literal_var hs)).resolve_left fun hl => ?_⟩
      rw [value_eq_true_iff.mpr ⟨s, hs, hl⟩] at hv
      cases hv
  · rintro ⟨s, hs, hl⟩
    simp [value, assignment, hs, hl, Literal.negate_ne]

/-- A literal is false exactly when its negation is true. -/
theorem WellFormed.value_eq_false_iff_negate (h : t.WellFormed) :
    t.value l = some false ↔ t.value l.negate = some true := by
  rw [h.value_eq_false_iff, value_eq_true_iff, Literal.negate_var]

theorem value_of_slot (hs : t.slot v = some s) (hl : s.literal.var = v) :
    t.value s.literal = some true :=
  value_eq_true_iff.mpr ⟨s, by rw [hl]; exact hs, rfl⟩

theorem value_congr (h : ∀ v, t'.slot v = t.slot v) (l : Literal) : t'.value l = t.value l := by
  rw [value, value, assignment, assignment, h]

theorem isAssigned_iff : t.isAssigned v ↔ ∃ s, t.slot v = some s := by
  rw [isAssigned, Option.isSome_iff_exists]

theorem isAssigned_eq_false_iff : t.isAssigned v = false ↔ t.slot v = none := by
  simp [isAssigned]

/-- Truth values above a level of return are forgotten, the others stay. -/
theorem value_backtrack_eq_some_iff (h : t.WellFormed) {b : Bool} :
    (t.backtrack k).value l = some b ↔
      t.value l = some b ∧ ∃ s, t.slot l.var = some s ∧ s.level ≤ k := by
  rw [value, value, assignment, assignment, slot_backtrack h]
  cases t.slot l.var with
  | none => simp
  | some s =>
    by_cases hk : s.level ≤ k <;> simp [Option.filter_some, hk]

theorem value_backtrack_eq_none_iff (h : t.WellFormed) :
    (t.backtrack k).value l = none ↔ ∀ s, t.slot l.var = some s → k < s.level := by
  rw [value_eq_none_iff, slot_backtrack h, Option.filter_eq_none_iff]
  simp

/-- So are levels. -/
theorem levelOf_backtrack_eq_some_iff (h : t.WellFormed) {n : Nat} :
    (t.backtrack k).levelOf v = some n ↔ t.levelOf v = some n ∧ n ≤ k := by
  simp only [levelOf, Option.map_eq_some_iff, slot_backtrack_eq_some_iff h]
  constructor
  · rintro ⟨s, ⟨hs, hle⟩, rfl⟩
    exact ⟨⟨s, hs, rfl⟩, hle⟩
  · rintro ⟨⟨s, hs, rfl⟩, hle⟩
    exact ⟨s, ⟨hs, hle⟩, rfl⟩

namespace Appends

variable {r : Reason}

theorem value_self (ha : t.Appends l r t') : t'.value l = some true :=
  value_eq_true_iff.mpr ⟨_, ha.slot_self, rfl⟩

/-- Below the level of the new assignment nothing changes. -/
theorem slot_backtrack (h : t.WellFormed) (ha : t.Appends l r t') (hk : k < t'.level) (v : Var) :
    (t'.backtrack k).slot v = (t.backtrack k).slot v := by
  rw [Trail.slot_backtrack h, Trail.slot_backtrack (h.append ha), ha.slot]
  split
  · next hv =>
    subst hv
    simp [ha.free, Option.filter_some, Nat.not_le.mpr hk]
  · rfl

end Appends

/-! ## Clauses -/

/-- Every literal of the clause is false. -/
def Falsifies (t : Trail) (c : Clause) : Prop := ∀ l ∈ c, t.value l = some false

/-- `l` is the only literal of the clause that is not false, and it is unassigned. -/
structure Forces (t : Trail) (c : Clause) (l : Literal) : Prop where
  mem : l ∈ c
  unassigned : t.value l = none
  others : ∀ m ∈ c, m ≠ l → t.value m = some false

/-- The clause is true, or has two unassigned literals. It forces nothing and is not falsified. -/
def Settles (t : Trail) (c : Clause) : Prop :=
  (∃ l ∈ c, t.value l = some true) ∨
    ∃ l ∈ c, ∃ m ∈ c, l ≠ m ∧ t.value l = none ∧ t.value m = none

/-- The slot of a literal of a falsified clause holds its negation. -/
theorem Falsifies.exists_slot (hw : t.WellFormed) (hf : t.Falsifies c) (hl : l ∈ c) :
    ∃ s, t.slot l.var = some s ∧ s.literal = l.negate :=
  hw.value_eq_false_iff.mp (hf l hl)

/-- A falsified clause has at most one literal of each variable. -/
theorem Falsifies.eq_of_var (hw : t.WellFormed) (hf : t.Falsifies c) (hl : l ∈ c) (hm : m ∈ c)
    (hv : l.var = m.var) : l = m := by
  refine (Literal.eq_or_eq_negate hv).resolve_right fun hneg => ?_
  have := hw.value_eq_false_iff_negate.mp (hf m hm)
  rw [← hneg, hf l hl] at this
  cases this

theorem Settles.congr (h : ∀ v, t'.slot v = t.slot v) (hc : t.Settles c) : t'.Settles c := by
  unfold Settles at hc ⊢
  simpa only [value_congr h] using hc

/-- A clause with the literals of a settled one, and perhaps others, is settled. -/
theorem Settles.mono {d : Clause} (hc : t.Settles c) (h : ∀ l ∈ c, l ∈ d) : t.Settles d := by
  rcases hc with ⟨l, hl, hv⟩ | ⟨l, hl, m, hm, hne, hvl, hvm⟩
  · exact .inl ⟨l, h l hl, hv⟩
  · exact .inr ⟨l, h l hl, m, h m hm, hne, hvl, hvm⟩

theorem Settles.not_falsifies (hc : t.Settles c) : ¬t.Falsifies c := by
  intro hf
  rcases hc with ⟨l, hl, ht⟩ | ⟨l, hl, -, -, -, hn, -⟩
  · simp [hf l hl] at ht
  · simp [hf l hl] at hn

theorem Settles.not_forces (hc : t.Settles c) : ¬t.Forces c l := by
  intro hf
  have hne : ∀ m ∈ c, t.value m ≠ some false → m = l := fun m hm hv =>
    Classical.byContradiction fun hml => hv (hf.others m hm hml)
  rcases hc with ⟨m, hm, ht⟩ | ⟨m, hm, n, hn, hmn, hvm, hvn⟩
  · have := hne m hm (by simp [ht])
    rw [this, hf.unassigned] at ht
    cases ht
  · exact hmn ((hne m hm (by simp [hvm])).trans (hne n hn (by simp [hvn])).symm)

/-- A settled clause with every literal false but one makes this one true. -/
theorem Settles.value_eq_true (hc : t.Settles c)
    (hothers : ∀ m ∈ c, m ≠ l → t.value m = some false) : t.value l = some true := by
  have hne : ∀ m ∈ c, t.value m ≠ some false → m = l := fun m hm hv =>
    Classical.byContradiction fun hml => hv (hothers m hm hml)
  rcases hc with ⟨m, hm, ht⟩ | ⟨m, hm, n, hn, hmn, hvm, hvn⟩
  · exact hne m hm (by simp [ht]) ▸ ht
  · exact absurd ((hne m hm (by simp [hvm])).trans (hne n hn (by simp [hvn])).symm) hmn

end Trail

namespace Clause

theorem nodup_literals (c : Clause) : c.literals.toList.Nodup :=
  c.ascending.imp fun hlt heq => by
    rw [heq] at hlt
    exact Nat.lt_irrefl _ hlt

/-- What each status says about the literals of the clause. -/
theorem status_spec (c : Clause) (t : Trail) :
    match c.status t with
    | .satisfied => ∃ l ∈ c, t.value l = some true
    | .unit l => t.Forces c l
    | .falsified => t.Falsifies c
    | .unresolved => ∃ l ∈ c, ∃ m ∈ c, l ≠ m ∧ t.value l = none ∧ t.value m = none := by
  unfold status
  by_cases hsat : c.literals.any (t.value · == some true)
  · rw [if_pos hsat]
    obtain ⟨l, hl, hv⟩ := Array.any_eq_true'.mp hsat
    exact ⟨l, hl, by simpa using hv⟩
  · rw [if_neg hsat]
    have hmem : ∀ l, l ∈ c.literals.toList.filter (t.value · == none) ↔
        l ∈ c ∧ t.value l = none := by
      intro l
      simp [mem_def]
    have hfalse : ∀ l ∈ c, t.value l ≠ none → t.value l = some false := by
      intro l hl hv
      cases hb : t.value l with
      | none => exact absurd hb hv
      | some b =>
        cases b with
        | false => rfl
        | true => exact absurd (Array.any_eq_true'.mpr ⟨l, hl, by simp [hb]⟩) hsat
    have hnodup := c.nodup_literals.filter (t.value · == none)
    revert hmem hnodup
    cases c.literals.toList.filter (t.value · == none) with
    | nil =>
      intro hmem _ l hl
      exact hfalse l hl fun hn => absurd ((hmem l).mpr ⟨hl, hn⟩) List.not_mem_nil
    | cons l ls =>
      intro hmem hnodup
      obtain ⟨hl, hn⟩ := (hmem l).mp List.mem_cons_self
      cases ls with
      | nil =>
        refine ⟨hl, hn, fun m hm hml => hfalse m hm fun hmn => hml ?_⟩
        simpa using (hmem m).mpr ⟨hm, hmn⟩
      | cons m ls =>
        obtain ⟨hm, hmn⟩ := (hmem m).mp (List.mem_cons_of_mem _ List.mem_cons_self)
        refine ⟨l, hl, m, hm, ?_, hn, hmn⟩
        rintro rfl
        simp at hnodup

theorem forces_of_status {c : Clause} {t : Trail} {l : Literal} (h : c.status t = .unit l) :
    t.Forces c l := by
  have := c.status_spec t
  rwa [h] at this

theorem falsifies_of_status {c : Clause} {t : Trail} (h : c.status t = .falsified) :
    t.Falsifies c := by
  have := c.status_spec t
  rwa [h] at this

theorem settles_of_status {c : Clause} {t : Trail}
    (h : c.status t = .satisfied ∨ c.status t = .unresolved) : t.Settles c := by
  have := c.status_spec t
  rcases h with h | h
  · rw [h] at this
    exact .inl this
  · rw [h] at this
    exact .inr this

end Clause

end ClauseLearning
