import ClauseLearning.Engine.Progress
import ClauseLearning.Proofs.Trail.Reasons
import Mathlib.Logic.Relation

/-!
# Unit propagation

Both ways to propagate do the same kind of step: a clause of the store forces a literal, which is
assigned at the current level and logged (`UnitStep`). `Progress.Derives` is any number of such
steps; the watches may change meanwhile.

* `Trail.Continues`: what any number of implied assignments keeps.
* `Derives.wellFormed`, `Derives.justified`, `Derives.continues`: unit propagation keeps the trail
  well formed and justified, and changes nothing below the current level.
-/

namespace ClauseLearning

namespace Trail

/-- `t'` is `t` with further implied assignments at its level. -/
structure Continues (t t' : Trail) : Prop where
  vars : t'.vars = t.vars
  starts : t'.starts = t.starts
  assigned : t.assigned.toList <+: t'.assigned.toList
  slot_old : ∀ {v s}, t.slot v = some s → t'.slot v = some s
  slot_cases : ∀ {v s}, t'.slot v = some s → t.slot v = some s ∨
    t.slot v = none ∧ s.level = t.level ∧ t.size ≤ s.position ∧ ∃ r, s.reason = .clause r

namespace Continues

variable {t t' t'' : Trail} {l : Literal} {c : Clause} {k : Nat}

theorem refl (t : Trail) : t.Continues t := ⟨rfl, rfl, List.prefix_rfl, id, .inl⟩

theorem level (h : t.Continues t') : t'.level = t.level := by
  rw [Trail.level, Trail.level, h.starts]

theorem size_le (h : t.Continues t') : t.size ≤ t'.size := by
  have := h.assigned.length_le
  simpa [size] using this

theorem trans (h : t.Continues t') (h' : t'.Continues t'') : t.Continues t'' where
  vars := h'.vars.trans h.vars
  starts := h'.starts.trans h.starts
  assigned := h.assigned.trans h'.assigned
  slot_old hs := h'.slot_old (h.slot_old hs)
  slot_cases {v s} hs := by
    rcases h'.slot_cases hs with hs | ⟨hn, hl, hp, hr⟩
    · exact h.slot_cases hs
    · refine .inr ⟨?_, hl.trans h.level, Nat.le_trans h.size_le hp, hr⟩
      cases hv : t.slot v with
      | none => rfl
      | some s' =>
        rw [h.slot_old hv] at hn
        cases hn

theorem of_appends {r : ClauseRef} (ha : t.Appends l (.clause r) t') : t.Continues t' := by
  have hst : t'.starts = t.starts := by
    rcases ha.starts with ⟨hst, -⟩ | ⟨-, hr⟩
    · exact hst
    · cases hr
  refine ⟨ha.vars, hst, ?_, ha.slot_old, ?_⟩
  · rw [ha.assigned, Array.toList_push]
    exact List.prefix_append _ _
  · intro v s hs
    rcases ha.slot_cases hs with ⟨rfl, rfl⟩ | hs
    · exact .inr ⟨ha.free, by simp [Trail.level, hst], Nat.le_refl _, r, rfl⟩
    · exact .inl hs

theorem value_old (h : t.Continues t') {b : Bool} (hv : t.value l = some b) :
    t'.value l = some b := by
  simp only [value, assignment, Option.map_map, Option.map_eq_some_iff] at hv ⊢
  obtain ⟨s, hs, hb⟩ := hv
  exact ⟨s, h.slot_old hs, hb⟩

theorem slot_of_lt (h : t.Continues t') {v : Var} {s : Slot} (hs : t'.slot v = some s)
    (hp : s.position < t.size) : t.slot v = some s := by
  rcases h.slot_cases hs with hs | ⟨-, -, hle, -⟩
  · exact hs
  · omega

/-- Below the current level nothing changes. -/
theorem slot_backtrack (hw : t.WellFormed) (hw' : t'.WellFormed) (h : t.Continues t')
    (hk : k < t.level) (v : Var) : (t'.backtrack k).slot v = (t.backtrack k).slot v := by
  apply Option.ext
  intro s
  rw [slot_backtrack_eq_some_iff hw, slot_backtrack_eq_some_iff hw']
  constructor
  · rintro ⟨hs, hle⟩
    rcases h.slot_cases hs with hs | ⟨-, hl, -, -⟩
    · exact ⟨hs, hle⟩
    · omega
  · exact fun ⟨hs, hle⟩ => ⟨h.slot_old hs, hle⟩

end Continues

end Trail

/-! ## Steps -/

/-- One step of unit propagation: some clause of the store forces a literal, which is assigned and
logged. -/
inductive UnitStep (store : ClauseStore) : Trail × List Event → Trail × List Event → Prop
  | intro {t t' : Trail} {log : List Event} {r : ClauseRef} {c : Clause} {l : Literal}
      (hr : store.get? r = some c) (hc : t.Forces c l) (hp : t.pushImplied l r = .ok t') :
      UnitStep store (t, log) (t', .implied l c :: log)

namespace Progress

/-- Any number of steps of unit propagation. -/
def Derives (store : ClauseStore) (p q : Progress) : Prop :=
  Relation.ReflTransGen (UnitStep store) (p.trail, p.log) (q.trail, q.log)

namespace Derives

variable {store : ClauseStore} {p q p' : Progress}

theorem of_eq (ht : q.trail = p.trail) (hl : q.log = p.log) : p.Derives store q := by
  rw [Derives, ht, hl]

theorem refl (p : Progress) : p.Derives store p := of_eq rfl rfl

theorem trans (h : p.Derives store p') (h' : p'.Derives store q) : p.Derives store q :=
  Relation.ReflTransGen.trans h h'

/-- An induction over the trails of a derivation. -/
theorem induct {P : Trail → Prop} (h : p.Derives store q) (hp : P p.trail)
    (hstep : ∀ {t t' : Trail} {r c l}, P t → store.get? r = some c → t.Forces c l →
      t.pushImplied l r = .ok t' → P t') : P q.trail := by
  have key : ∀ {x : Trail × List Event},
      Relation.ReflTransGen (UnitStep store) (p.trail, p.log) x → P x.1 := by
    intro x hx
    induction hx with
    | refl => exact hp
    | tail _ hs ih =>
      cases hs with
      | intro hr hc hpush => exact hstep ih hr hc hpush
  exact key h

theorem wellFormed (h : p.Derives store q) (hw : p.trail.WellFormed) : q.trail.WellFormed :=
  h.induct hw fun hw _ _ hp => hw.append (Trail.appends_of_pushImplied hw hp)

theorem justified (h : p.Derives store q) (hw : p.trail.WellFormed)
    (hj : p.trail.Justified store) : q.trail.Justified store :=
  (h.induct (P := fun t => t.WellFormed ∧ t.Justified store) ⟨hw, hj⟩
    fun ⟨hw, hj⟩ hr hc hp =>
      have ha := Trail.appends_of_pushImplied hw hp
      ⟨hw.append ha, hj.appendImplied hw ha hr hc⟩).2

theorem continues (h : p.Derives store q) (hw : p.trail.WellFormed) :
    p.trail.Continues q.trail :=
  (h.induct (P := fun t => t.WellFormed ∧ p.trail.Continues t) ⟨hw, .refl _⟩
    fun ⟨hw, hc⟩ _ _ hp =>
      have ha := Trail.appends_of_pushImplied hw hp
      ⟨hw.append ha, hc.trans (.of_appends ha)⟩).2

end Derives

/-- A clause of the store that forces a literal over a variable of the trail can imply it. -/
theorem exists_imply {store : ClauseStore} {p : Progress} {l : Literal} {r : ClauseRef} {c : Clause}
    (hw : p.trail.WellFormed) (hv : l.var ∈ p.trail.vars) (hr : store.get? r = some c)
    (hc : p.trail.Forces c l) :
    ∃ q, p.imply l r c = .ok q ∧ q.watcher = p.watcher ∧ p.Derives store q ∧
      p.trail.Appends l (.clause r) q.trail := by
  obtain ⟨t, ht⟩ := Trail.exists_push hw.sorted hv (Trail.value_eq_none_iff.mp hc.unassigned)
    (.clause r)
  refine ⟨⟨t, p.watcher, .implied l c :: p.log⟩, ?_, rfl, .single (.intro hr hc ht),
    Trail.appends_of_pushImplied hw ht⟩
  simp only [imply, Trail.pushImplied, ht]
  rfl

end Progress

end ClauseLearning
