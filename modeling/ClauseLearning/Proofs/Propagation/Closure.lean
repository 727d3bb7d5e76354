import ClauseLearning.Proofs.Propagation.Scan
import ClauseLearning.Proofs.Trail.Levels

/-!
# What unit propagation derives

`UnitClosure` is what unit propagation can derive from some clauses and given literals, in whatever
order. A justified trail holds nothing else (`Justified.unitClosure`), and a trail under which every
clause is settled holds all of it (`UnitClosure.value_eq_true`). So a complete propagation has one
result:

* `Trail.Saturated`, `Trail.saturated`: what a completely propagated level holds.
* `Saturated.congr`: it depends on the store and on the decisions alone.
* `Justified.not_falsifies`: what is falsified on one trail cannot be settled on another one with
  the same decisions.
* `Progress.Propagated.congr`: two propagations from one state agree.
-/

namespace ClauseLearning

/-- The literals that unit propagation derives from the clauses `f` and the literals `ds`: the least
set that has those of `ds`, and each literal of a clause whose other literals it makes false. -/
inductive UnitClosure (f : Formula) (ds : List Literal) : Literal → Prop
  | given {l : Literal} (hl : l ∈ ds) : UnitClosure f ds l
  | unit {c : Clause} {l : Literal} (hc : c ∈ f) (hl : l ∈ c)
      (hothers : ∀ m ∈ c, m ≠ l → UnitClosure f ds m.negate) : UnitClosure f ds l

/-- Where every clause is settled, everything that can be derived is true. -/
theorem UnitClosure.value_eq_true {t : Trail} {f : Formula} {ds : List Literal} {l : Literal}
    (hw : t.WellFormed) (hds : ∀ d ∈ ds, t.value d = some true) (hf : ∀ c ∈ f, t.Settles c)
    (hl : UnitClosure f ds l) : t.value l = some true := by
  induction hl with
  | given hl => exact hds _ hl
  | unit hc _ _ ih =>
    exact (hf _ hc).value_eq_true fun m hm hne => hw.value_eq_false_iff_negate.mpr (ih m hm hne)

namespace Trail

variable {store : ClauseStore} {t t' : Trail} {v : Var} {l : Literal} {s : Slot} {c : Clause}
  {k : Nat}

/-! ## Saturated levels -/

/-- Up to each level, a justified trail holds only what can be derived from the decisions. -/
theorem Justified.unitClosure (hw : t.WellFormed) (hj : t.Justified store) (hs : t.slot v = some s)
    (hk : s.level ≤ k) : UnitClosure store.clauses.toList (t.decisions.take k) s.literal := by
  -- On the position: the other literals of a reason come earlier.
  induction hp : s.position using Nat.strongRecOn generalizing v s with
  | ind p ih =>
    cases hr : s.reason with
    | decision =>
      obtain rfl := hw.literal_var hs
      exact .given (hw.mem_take_decisions.mpr ⟨s, hs, rfl, hr, hk⟩)
    | clause r =>
      obtain ⟨c, hc, hmem, hothers⟩ := hj hs hr
      have hstore := Array.mem_toList_iff.mpr (ClauseStore.mem_clauses_iff.mpr ⟨r, hc⟩)
      refine .unit hstore hmem fun m hm hne => ?_
      obtain ⟨s', hs', hl, hlt⟩ := hothers m hm hne
      have hle := hw.level_mono hs' hs (Nat.le_of_lt hlt)
      exact hl ▸ ih s'.position (hp ▸ hlt) hs' (Nat.le_trans hle hk) rfl

/-- A settled clause is neither unit nor falsified. -/
theorem Settles.status_ne (hc : t.Settles c) :
    c.status t ≠ .falsified ∧ ∀ l, c.status t ≠ .unit l :=
  ⟨fun h => hc.not_falsifies (Clause.falsifies_of_status h), fun _ h =>
    hc.not_forces (Clause.forces_of_status h)⟩

/-- Up to level `k`, the trail holds exactly what unit propagation derives from the store and from
the decisions of the levels up to `k`, and no clause is unit or falsified there. -/
structure Saturated (store : ClauseStore) (t : Trail) (k : Nat) : Prop where
  assigns_iff : ∀ l, t.AssignsUpTo l k ↔
    UnitClosure store.clauses.toList (t.decisions.take k) l
  status_ne : ∀ c ∈ store.clauses, c.status (t.backtrack k) ≠ .falsified ∧
    ∀ l, c.status (t.backtrack k) ≠ .unit l

/-- A level is saturated when every clause is settled there. -/
theorem saturated (hw : t.WellFormed) (hj : t.Justified store)
    (hsettles : ∀ c ∈ store.clauses, (t.backtrack k).Settles c) : t.Saturated store k := by
  refine ⟨fun l => ⟨fun hl => ?_, fun hl => ?_⟩, fun c hc => (hsettles c hc).status_ne⟩
  · obtain ⟨n, hn, hl⟩ := hl
    obtain ⟨s, hs, rfl, rfl⟩ := hw.assignsAt_iff_slot.mp hl
    exact hj.unitClosure hw hs hn
  · rw [hw.assignsUpTo_iff]
    refine hl.value_eq_true (hw.backtrack k) (fun d hd => ?_) fun c hc =>
      hsettles c (Array.mem_toList_iff.mp hc)
    obtain ⟨s, hs, hlit, -, hk⟩ := hw.mem_take_decisions.mp hd
    exact value_eq_true_iff.mpr ⟨s, (slot_backtrack_eq_some_iff hw).mpr ⟨hs, hk⟩, hlit⟩

/-- What a saturated level holds is determined by the store and the decisions. -/
theorem Saturated.congr (h : t.Saturated store k) (h' : t'.Saturated store k)
    (hd : t.decisions.take k = t'.decisions.take k) (l : Literal) :
    t.AssignsUpTo l k ↔ t'.AssignsUpTo l k := by
  rw [h.assigns_iff, h'.assigns_iff, hd]

/-! ## Trails with the same decisions -/

/-- The decisions stay while literals are implied. -/
theorem Continues.decisions (hw : t.WellFormed) (hc : t.Continues t') :
    t'.decisions = t.decisions := by
  rw [Trail.decisions, hc.starts, decisions_of_prefix hw hc.assigned]

/-- Literals that both trails have are at the same levels. -/
theorem Continues.level_eq {t₁ t₂ : Trail} {s₁ s₂ : Slot} (h₁ : t.Continues t₁)
    (h₂ : t.Continues t₂) (hs₁ : t₁.slot v = some s₁) (hs₂ : t₂.slot v = some s₂) :
    s₁.level = s₂.level := by
  cases hs : t.slot v with
  | some s =>
    obtain rfl := Option.some.inj ((h₁.slot_old hs).symm.trans hs₁)
    obtain rfl := Option.some.inj ((h₂.slot_old hs).symm.trans hs₂)
    rfl
  | none =>
    have hlevel : ∀ {u s}, t.Continues u → u.slot v = some s → s.level = t.level := by
      intro u s hu hus
      rcases hu.slot_cases hus with h | ⟨-, hl, -⟩
      · rw [hs] at h
        cases h
      · exact hl
    rw [hlevel h₁ hs₁, hlevel h₂ hs₂]

section Justified

variable (hw : t.WellFormed) (hj : t.Justified store) (hw' : t'.WellFormed)
  (hsettles : ∀ c ∈ store.clauses, t'.Settles c) (hd : ∀ d ∈ t.decisions, t'.value d = some true)

include hw hj hw' hsettles hd

/-- Where every clause is settled and the decisions of a justified trail are true, its other
literals are true as well. -/
theorem Justified.value_eq_true (hl : t.value l = some true) : t'.value l = some true := by
  obtain ⟨s, hs, rfl⟩ := value_eq_true_iff.mp hl
  exact (hj.unitClosure hw hs (Nat.le_refl _)).value_eq_true hw'
    (fun d hd' => hd d (List.mem_of_mem_take hd')) fun c hc =>
      hsettles c (Array.mem_toList_iff.mp hc)

/-- So no clause of the store is falsified by the justified trail. -/
theorem Justified.not_falsifies (hc : c ∈ store.clauses) : ¬t.Falsifies c := by
  intro hf
  refine (hsettles c hc).not_falsifies fun l hl => ?_
  rw [hw'.value_eq_false_iff_negate]
  exact hj.value_eq_true hw hw' hsettles hd (hw.value_eq_false_iff_negate.mp (hf l hl))

end Justified

end Trail

/-! ## Two propagations from one state -/

namespace Progress.Propagated

variable {store : ClauseStore} {p q q' : Progress} {o o' : Option ClauseRef} {l : Literal} {n : Nat}
  (hw : p.trail.WellFormed) (hj : p.trail.Justified store)

include hw

/-- No propagation changes the decisions. -/
private theorem value_of_mem_decisions (h : p.Propagated store o q)
    (h' : p.Propagated store o' q') :
    ∀ d ∈ q.trail.decisions, q'.trail.value d = some true := by
  intro d hd
  apply (h'.derives.wellFormed hw).value_of_mem_decisions
  rwa [(h'.derives.continues hw).decisions hw, ← (h.derives.continues hw).decisions hw]

include hj

/-- After one propagation without a conflict, no other one ends in a conflict. -/
private theorem eq_none (h : p.Propagated store o q) (h' : p.Propagated store none q') :
    o = none := by
  refine Option.eq_none_iff_forall_ne_some.mpr fun r hr => ?_
  obtain ⟨c, hc, hf⟩ := h.falsified hr
  exact (h.derives.justified hw hj).not_falsifies (h.derives.wellFormed hw)
    (h'.derives.wellFormed hw) (h'.settled rfl) (h.value_of_mem_decisions hw h')
    (ClauseStore.mem_clauses_iff.mpr ⟨r, hc⟩) hf

/-- What another propagation assigns, one without a conflict assigns at the same level. -/
private theorem assignsAt (h : p.Propagated store o q) (h' : p.Propagated store none q')
    (hl : q.trail.AssignsAt l n) : q'.trail.AssignsAt l n := by
  have hq := h.derives.wellFormed hw
  have hq' := h'.derives.wellFormed hw
  obtain ⟨s, hs, hlit, rfl⟩ := hq.assignsAt_iff_slot.mp hl
  have hv := (h.derives.justified hw hj).value_eq_true hq hq' (h'.settled rfl)
    (h.value_of_mem_decisions hw h') (Trail.value_eq_true_iff.mpr ⟨s, hs, hlit⟩)
  obtain ⟨s', hs', hlit'⟩ := Trail.value_eq_true_iff.mp hv
  exact hq'.assignsAt_iff_slot.mpr ⟨s', hs', hlit',
    (h'.derives.continues hw).level_eq (h.derives.continues hw) hs' hs⟩

/-- Two propagations from one state both end in a conflict, or they assign the same literals at the
same levels. -/
theorem congr (h : p.Propagated store o q) (h' : p.Propagated store o' q') :
    (o = none ↔ o' = none) ∧
      (o = none → ∀ l n, q.trail.AssignsAt l n ↔ q'.trail.AssignsAt l n) := by
  have hiff : o = none ↔ o' = none := by
    constructor
    · rintro rfl
      exact h'.eq_none hw hj h
    · rintro rfl
      exact h.eq_none hw hj h'
  refine ⟨hiff, fun ho l n => ?_⟩
  obtain rfl := hiff.mp ho
  subst ho
  exact ⟨h.assignsAt hw hj h', h'.assignsAt hw hj h⟩

end Progress.Propagated

end ClauseLearning
