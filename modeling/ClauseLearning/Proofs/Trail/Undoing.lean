import ClauseLearning.Proofs.Trail.Changes

/-!
# Undoing levels

A level is undone by where it starts, not from a copy of the trail. Still it brings back the trail
that was there before the level was opened, whatever has been done to the trail since: a well-formed
trail is determined by its slots (`WellFormed.eq_of_slot`), and no change above a level touches the
slots up to it.

* `Trail.backtrack_backtrack`: undoing levels twice is undoing the most of them once.
* `Change.Above`, `WellFormed.backtrack_run`: changes above a level leave what is up to it.
* `Trail.Keeps`, `WellFormed.keeps_backtrack`: what is left of a trail.
* `Trail.undo_restores`: all of this for the trails that changes can lead to.
-/

namespace ClauseLearning

namespace Trail

variable {t t' : Trail} {v : Var} {l : Literal} {r : Reason} {c : Change} {cs : List Change}
  {k q : Nat}

/-! ## Equal trails -/

namespace WellFormed

/-- The slot of the variable of rank `i`. -/
theorem slot_getElem (h : t.WellFormed) {i : Nat} (hi : i < t.vars.size) :
    t.slot t.vars[i] = t.slots[i]?.join := by
  have hidx := (index_eq_some_iff h.sorted).mpr (Array.getElem?_eq_getElem hi)
  rw [slot, hidx, Option.bind_some]

/-- The order of assignments and the starts of the levels can be read off the slots. -/
theorem eq_of_slot (h : t.WellFormed) (h' : t'.WellFormed) (hvars : t.vars = t'.vars)
    (hslot : ∀ v, t.slot v = t'.slot v) : t = t' := by
  have hslots : t.slots = t'.slots := by
    apply Array.ext
    · rw [h.slots_size, h'.slots_size, hvars]
    · intro i hi hi'
      have hv : i < t.vars.size := h.slots_size ▸ hi
      have hv' : i < t'.vars.size := h'.slots_size ▸ hi'
      have hi₁ := h.slot_getElem hv
      have hi₂ := h'.slot_getElem hv'
      rw [Array.getElem?_eq_getElem hi, Option.join_some] at hi₁
      rw [Array.getElem?_eq_getElem hi', Option.join_some] at hi₂
      simp only [← hi₁, ← hi₂, hslot, hvars]
  have hassigned : t.assigned = t'.assigned := Array.ext_getElem? fun p => Option.ext fun l => by
    rw [h.assigned_iff, h'.assigned_iff, hslot]
  have hstarts : t.starts = t'.starts := Array.ext_getElem? fun k => Option.ext fun q => by
    simp only [h.getElem?_starts_eq_some_iff, h'.getElem?_starts_eq_some_iff, hslot]
  obtain ⟨vars, slots, assigned, starts⟩ := t
  obtain rfl : vars = t'.vars := hvars
  obtain rfl : slots = t'.slots := hslots
  obtain rfl : assigned = t'.assigned := hassigned
  obtain rfl : starts = t'.starts := hstarts
  rfl

end WellFormed

/-! ## Changes above a level -/

/-- Undoing levels twice is undoing the most of them once. -/
theorem backtrack_backtrack (h : t.WellFormed) (a b : Nat) :
    (t.backtrack a).backtrack b = t.backtrack (min a b) := by
  have ha := h.backtrack a
  refine (ha.backtrack b).eq_of_slot (h.backtrack _) (by simp) fun v => Option.ext fun s => ?_
  rw [slot_backtrack_eq_some_iff ha, slot_backtrack_eq_some_iff h, slot_backtrack_eq_some_iff h,
    Nat.le_min, and_assoc]

/-- An assignment changes nothing below its level. -/
theorem Appends.backtrack_eq (h : t.WellFormed) (ha : t.Appends l r t') (hk : k < t'.level) :
    t'.backtrack k = t.backtrack k :=
  ((h.append ha).backtrack k).eq_of_slot (h.backtrack k) (by simp [ha.vars])
    (ha.slot_backtrack h hk)

/-- The change undoes nothing up to level `k`. -/
def Change.Above (k : Nat) : Change → Prop
  | .decide _ | .imply _ _ => True
  | .backtrack j => k < j
  | .reset => False

instance (k : Nat) : DecidablePred (Change.Above k)
  | .decide _ | .imply _ _ => .isTrue trivial
  | .backtrack j => inferInstanceAs (Decidable (k < j))
  | .reset => .isFalse id

namespace WellFormed

theorem backtrack_apply (h : t.WellFormed) (hk : k < t.level) (hc : c.Above k)
    (happly : c.apply t = .ok t') : k < t'.level ∧ t'.backtrack k = t.backtrack k := by
  cases c with
  | decide l =>
    have ha := appends_of_pushDecision h happly
    have hk' := Nat.lt_of_lt_of_le hk ha.level_le
    exact ⟨hk', ha.backtrack_eq h hk'⟩
  | imply l r =>
    have ha := appends_of_pushImplied h happly
    have hk' := Nat.lt_of_lt_of_le hk ha.level_le
    exact ⟨hk', ha.backtrack_eq h hk'⟩
  | backtrack j =>
    obtain rfl := Except.ok.inj happly
    have hj : k < j := hc
    rw [level_backtrack, backtrack_backtrack h, Nat.min_eq_right (Nat.le_of_lt hj)]
    exact ⟨Nat.lt_min.mpr ⟨hj, hk⟩, rfl⟩
  | reset => exact hc.elim

/-- Changes above a level leave what is up to it. -/
theorem backtrack_run (h : t.WellFormed) (hk : k < t.level) (hcs : ∀ c ∈ cs, c.Above k)
    (hrun : t.run cs = .ok t') : t'.backtrack k = t.backtrack k := by
  induction cs generalizing t with
  | nil =>
    obtain rfl := Except.ok.inj hrun
    rfl
  | cons c cs ih =>
    cases hc : c.apply t with
    | error x =>
      rw [run, hc] at hrun
      cases hrun
    | ok t₁ =>
      rw [run, hc] at hrun
      obtain ⟨hk₁, heq⟩ := h.backtrack_apply hk (hcs c List.mem_cons_self) hc
      rw [← heq]
      exact ih (h.apply hc) hk₁ (fun c hc => hcs c (List.mem_cons_of_mem _ hc)) hrun

/-- Once a level has been opened, changes above the earlier level can be undone with it. -/
theorem backtrack_run_decide (h : t.WellFormed) (hcs : ∀ c ∈ cs, c.Above t.level)
    (hrun : t.run (.decide l :: cs) = .ok t') : t'.backtrack t.level = t := by
  cases hd : t.pushDecision l with
  | error x =>
    rw [run, Change.apply, hd] at hrun
    cases hrun
  | ok t₁ =>
    rw [run, Change.apply, hd] at hrun
    have ha := appends_of_pushDecision h hd
    have hlt : t.level < t₁.level := by
      rw [level_of_pushDecision hd]
      exact Nat.lt_succ_self _
    calc t'.backtrack t.level = t₁.backtrack t.level := (h.append ha).backtrack_run hlt hcs hrun
      _ = t.backtrack t.level := ha.backtrack_eq h hlt
      _ = t := backtrack_eq_self (Nat.le_refl _)

end WellFormed

/-! ## What is left of a trail -/

/-- `t'` is what is left of `t` when the levels above `k` are gone: its literals up to level `k` in
their order, with all that was known about them, and the decisions of these levels. -/
structure Keeps (t : Trail) (k : Nat) (t' : Trail) : Prop where
  vars : t'.vars = t.vars
  assigned : t'.assigned.toList = t.assigned.toList.filter fun l => (t.levelOf l.var).any (· ≤ k)
  slot : ∀ v, t'.slot v = (t.slot v).filter (·.level ≤ k)
  decisions : t'.decisions = t.decisions.take k

namespace WellFormed

/-- The literals up to a level come before its end. -/
theorem filter_levelOf (h : t.WellFormed) (hq : t.starts[k]? = some q) :
    t.assigned.toList.filter (fun l => (t.levelOf l.var).any (· ≤ k)) =
      t.assigned.toList.take q := by
  have key : ∀ {p : Nat} {l}, t.assigned.toList[p]? = some l →
      ((t.levelOf l.var).any (· ≤ k) = true ↔ p < q) := by
    intro p l hl
    rw [Array.getElem?_toList] at hl
    obtain ⟨s, hs, -, rfl⟩ := h.assigned_iff.mp hl
    have := h.lt_level_iff hs hq
    simp only [levelOf, hs, Option.map_some, Option.any_some, decide_eq_true_eq]
    omega
  have htake : ∀ l ∈ t.assigned.toList.take q, (t.levelOf l.var).any (· ≤ k) = true := by
    intro l hl
    obtain ⟨p, hp⟩ := List.mem_iff_getElem?.mp hl
    rw [List.getElem?_take] at hp
    split at hp
    · next hlt => exact (key hp).mpr hlt
    · cases hp
  have hdrop : ∀ l ∈ t.assigned.toList.drop q, ¬(t.levelOf l.var).any (· ≤ k) = true := by
    intro l hl hle
    obtain ⟨p, hp⟩ := List.mem_iff_getElem?.mp hl
    rw [List.getElem?_drop] at hp
    have := (key hp).mp hle
    omega
  conv_lhs => rw [← List.take_append_drop q t.assigned.toList]
  rw [List.filter_append, List.filter_eq_self.mpr htake, List.filter_eq_nil_iff.mpr hdrop,
    List.append_nil]

theorem decisions_backtrack (h : t.WellFormed) (k : Nat) :
    (t.backtrack k).decisions = t.decisions.take k := by
  refine List.ext_getElem? fun i => Option.ext fun l => ?_
  rw [List.getElem?_take, (h.backtrack k).getElem?_decisions_eq_some_iff]
  simp only [slot_backtrack_eq_some_iff h]
  split
  · next hi =>
    rw [h.getElem?_decisions_eq_some_iff]
    exact exists_congr fun s => ⟨fun ⟨⟨hs, _⟩, hl⟩ => ⟨hs, hl⟩, fun ⟨hs, hlit, hr, hl⟩ =>
      ⟨⟨hs, by omega⟩, hlit, hr, hl⟩⟩
  · next hi =>
    constructor
    · rintro ⟨s, ⟨-, hle⟩, -, -, hl⟩
      omega
    · exact fun hl => nomatch hl

theorem keeps_backtrack (h : t.WellFormed) (k : Nat) : t.Keeps k (t.backtrack k) := by
  refine ⟨vars_backtrack t k, ?_, slot_backtrack h k, h.decisions_backtrack k⟩
  cases hq : t.starts[k]? with
  | some q =>
    rw [h.filter_levelOf hq, backtrack_eq_truncate hq, truncate, Array.take_eq_extract,
      Array.toList_extract, List.extract_eq_drop_take', List.drop_zero]
  | none =>
    have hk : t.level ≤ k := Array.getElem?_eq_none_iff.mp hq
    rw [backtrack_eq_self hk]
    refine (List.filter_eq_self.mpr fun l hl => ?_).symm
    obtain ⟨s, hs, -⟩ := h.exists_slot_of_mem (Array.mem_toList_iff.mp hl)
    simp [levelOf, hs, Nat.le_trans (h.level_le hs) hk]

end WellFormed

/-- On every trail that changes can lead to from an empty one: whatever allowed changes come after a
decision, as long as they stay above the level before it, undoing them gives back the very trail;
undoing levels twice is undoing the most of them once; and undoing leaves the literals of the other
levels as they were. -/
theorem undo_restores {vs : Array Var} (hs : Ascending.Sorted Var.id vs.toList) :
    ∃ t₀, ofVariables vs = .ok t₀ ∧ ∀ cs, t₀.Permits cs → ∃ t, t₀.run cs = .ok t ∧
      (∀ l ds, t.Permits (.decide l :: ds) → (∀ d ∈ ds, d.Above t.level) →
        ∃ t', t.run (.decide l :: ds) = .ok t' ∧ t'.backtrack t.level = t) ∧
      (∀ a b, (t.backtrack a).backtrack b = t.backtrack (min a b)) ∧
      ∀ k, t.Keeps k (t.backtrack k) := by
  refine ⟨empty vs, if_pos hs, fun cs hcs => ?_⟩
  obtain ⟨t, ht, hw⟩ := (WellFormed.empty hs).exists_run hcs
  refine ⟨t, ht, fun l ds hds habove => ?_, backtrack_backtrack hw, hw.keeps_backtrack⟩
  obtain ⟨t', ht', -⟩ := hw.exists_run hds
  exact ⟨t', ht', hw.backtrack_run_decide habove ht'⟩

/-- A root literal, a decision and an implied literal, on sparse variables. -/
def opening : List Change :=
  let x : Nat → Bool → Literal := fun n b => ⟨⟨n + 1, n.succ_pos⟩, b⟩
  [.imply (x 6 false) ⟨0⟩, .decide (x 2 true), .imply (x 99 false) ⟨1⟩]

/-- Two levels more. One of them is undone again, and its variable is assigned otherwise. -/
def detour : List Change :=
  let x : Nat → Bool → Literal := fun n b => ⟨⟨n + 1, n.succ_pos⟩, b⟩
  [.decide (x 90 true), .decide (x 199 true), .backtrack 2, .imply (x 199 false) ⟨2⟩, .backtrack 7]

/-- The detour leaves five literals, and undoing it the three of the opening. -/
theorem detour_undone :
    let vs : Array Var := #[⟨3, by decide⟩, ⟨7, by decide⟩, ⟨91, by decide⟩, ⟨100, by decide⟩,
      ⟨200, by decide⟩]
    Ascending.Sorted Var.id vs.toList ∧ (empty vs).Permits opening ∧
      ∃ t, (empty vs).run opening = .ok t ∧ t.level = 1 ∧ t.Permits detour ∧
        (∀ d ∈ detour.tail, d.Above t.level) ∧ ∃ t', t.run detour = .ok t' ∧
          t'.assigned.map Literal.toInt = #[-7, 3, -100, 91, -200] ∧ t'.backtrack 1 = t := by
  intro vs
  have hs : Ascending.Sorted Var.id vs.toList := by decide
  have hallowed : (empty vs).Permits opening := by decide +kernel
  have hopening : ((empty vs).run opening).map (fun t => (t.level, decide (t.Permits detour),
      (t.run detour).map (·.assigned.map Literal.toInt))) =
        .ok (1, true, .ok #[-7, 3, -100, 91, -200]) := by
    decide +kernel
  obtain ⟨t₀, ht₀, hall⟩ := undo_restores hs
  obtain rfl : empty vs = t₀ := Except.ok.inj ((if_pos hs).symm.trans ht₀)
  obtain ⟨t, ht, hrestores, -⟩ := hall opening hallowed
  rw [ht] at hopening
  simp only [Except.map, Except.ok.injEq, Prod.mk.injEq, decide_eq_true_eq] at hopening
  obtain ⟨hlevel, hpermits, hdetour⟩ := hopening
  have habove : ∀ d ∈ detour.tail, d.Above t.level := by
    rw [hlevel]
    decide
  obtain ⟨t', ht', hback⟩ := hrestores _ detour.tail hpermits habove
  have hrun : t.run detour = .ok t' := ht'
  rw [hrun] at hdetour
  exact ⟨hs, hallowed, t, ht, hlevel, hpermits, habove, t', hrun, Except.ok.inj hdetour,
    hlevel ▸ hback⟩

end Trail

end ClauseLearning
