import ClauseLearning.Proofs.Engine.Invariant

/-!
# The implication graph

The reasons of a trail explain it: each implied literal stands in a clause of the store whose other
literals were falsified before, and it is assigned at the lowest level at which this clause forces a
literal. The reason alone does not tell the level. It follows from the levels below, where every
clause is settled.

* `Trail.Explains`, `Trail.Explained`: what the reasons of a trail say.
* `WellFormed.explained`: they say so on every trail that is justified and settled below its level.
* `Session.Passes`: the trails between the assignments of a run.
* `Session.implications_explained`: all of them are explained.
-/

namespace ClauseLearning

namespace Trail

variable {store : ClauseStore} {t t' : Trail} {v : Var} {l m : Literal} {s : Slot} {c : Clause}
  {k : Nat}

/-! ## Reasons and levels -/

/-- The highest level among the other literals of the clause, or the root level. -/
def levelOfOthers (t : Trail) (c : Clause) (l : Literal) : Nat :=
  ((c.literals.toList.filter (· ≠ l)).filterMap fun m => t.levelOf m.var).max?.getD 0

/-- The assignment of `v` comes before that of `w`. -/
def Precedes (t : Trail) (v w : Var) : Prop :=
  ∃ p q, t.position v = some p ∧ t.position w = some q ∧ p < q

/-- The clause is why `l` is assigned, and why at its level: at no lower level it would have forced
a literal. -/
structure Explains (t : Trail) (c : Clause) (l : Literal) : Prop where
  mem : l ∈ c
  negate_not_mem : l.negate ∉ c
  others : ∀ m ∈ c, m ≠ l → t.value m = some false ∧ t.Precedes m.var l.var
  level : t.levelOf l.var = some (t.levelOfOthers c l)
  lowest : ∀ k < t.levelOfOthers c l, ∀ m, ¬(t.backtrack k).Forces c m

/-- An edge of the implication graph: the reason of `m` contains the negation of `l`. -/
def Implies (store : ClauseStore) (t : Trail) (l m : Literal) : Prop :=
  ∃ r c, t.assignment m.var = some m ∧ t.reason m.var = some (.clause r) ∧ store.get? r = some c ∧
    l.negate ∈ c ∧ l.negate ≠ m

/-- Every implied literal is explained by its reason, and no literal implies itself. -/
structure Explained (store : ClauseStore) (t : Trail) : Prop where
  reasons : ∀ l ∈ t.assigned, ∀ r, t.reason l.var = some (.clause r) →
    ∃ c, store.get? r = some c ∧ t.Explains c l
  acyclic : ∀ l, ¬Relation.TransGen (t.Implies store) l l

/-- No clause forces a literal or is falsified below the current level. -/
def SettledBelow (store : ClauseStore) (t : Trail) : Prop :=
  ∀ k < t.level, ∀ c ∈ store.clauses, (t.backtrack k).Settles c

namespace SettledBelow

theorem continues (h : t.SettledBelow store) (hw : t.WellFormed) (hw' : t'.WellFormed)
    (hc : t.Continues t') : t'.SettledBelow store := fun k hk c hmem =>
  have hk : k < t.level := hc.level ▸ hk
  (h k hk c hmem).congr (hc.slot_backtrack hw hw' hk)

theorem backtrack (h : t.SettledBelow store) (hw : t.WellFormed) (k : Nat) :
    (t.backtrack k).SettledBelow store := by
  intro j hj c hmem
  rw [level_backtrack, Nat.lt_min] at hj
  exact (h j hj.2 c hmem).congr
    (slot_backtrack_backtrack hw (hw.backtrack k) (Nat.le_of_lt hj.1))

end SettledBelow

theorem precedes_iff_slot {w : Var} : t.Precedes v w ↔
    ∃ s s', t.slot v = some s ∧ t.slot w = some s' ∧ s.position < s'.position := by
  simp only [Precedes, position, Option.map_eq_some_iff]
  constructor
  · rintro ⟨p, q, ⟨s, hs, rfl⟩, ⟨s', hs', rfl⟩, hlt⟩
    exact ⟨s, s', hs, hs', hlt⟩
  · rintro ⟨s, s', hs, hs', hlt⟩
    exact ⟨s.position, s'.position, ⟨s, hs, rfl⟩, ⟨s', hs', rfl⟩, hlt⟩

theorem implies_iff_slot : t.Implies store l m ↔
    ∃ s r c, t.slot m.var = some s ∧ s.literal = m ∧ s.reason = .clause r ∧
      store.get? r = some c ∧ l.negate ∈ c ∧ l.negate ≠ m := by
  simp only [Implies, assignment, reason, Option.map_eq_some_iff]
  constructor
  · rintro ⟨r, c, ⟨s, hs, hlit⟩, ⟨s', hs', hr⟩, hc⟩
    obtain rfl := Option.some.inj (hs.symm.trans hs')
    exact ⟨s, r, c, hs, hlit, hr, hc⟩
  · rintro ⟨s, r, c, hs, hlit, hr, hc⟩
    exact ⟨r, c, ⟨s, hs, hlit⟩, ⟨s, hs, hr⟩, hc⟩

theorem Precedes.trans {u w : Var} (h : t.Precedes u v) (h' : t.Precedes v w) :
    t.Precedes u w := by
  obtain ⟨p, q, hp, hq, hlt⟩ := h
  obtain ⟨q', n, hq', hn, hlt'⟩ := h'
  obtain rfl := Option.some.inj (hq.symm.trans hq')
  exact ⟨p, n, hp, hn, Nat.lt_trans hlt hlt'⟩

theorem not_precedes_self (v : Var) : ¬t.Precedes v v := by
  rintro ⟨p, q, hp, hq, hlt⟩
  obtain rfl := Option.some.inj (hp.symm.trans hq)
  exact Nat.lt_irrefl _ hlt

private theorem mem_levels_of_others {n : Nat} :
    n ∈ (c.literals.toList.filter (· ≠ l)).filterMap (fun m => t.levelOf m.var) ↔
      ∃ m ∈ c, m ≠ l ∧ ∃ s, t.slot m.var = some s ∧ s.level = n := by
  simp [Clause.mem_def, levelOf, and_assoc]

/-- Above the root level, the highest level is that of one of the other literals. -/
theorem exists_level_eq (h : 0 < t.levelOfOthers c l) :
    ∃ m ∈ c, m ≠ l ∧ ∃ s, t.slot m.var = some s ∧ s.level = t.levelOfOthers c l := by
  unfold levelOfOthers at h ⊢
  cases hmax : ((c.literals.toList.filter (· ≠ l)).filterMap fun m => t.levelOf m.var).max? with
  | none =>
    rw [hmax] at h
    exact absurd h (Nat.lt_irrefl 0)
  | some n => exact mem_levels_of_others.mp (List.max?_eq_some_iff.mp hmax).1

namespace WellFormed

variable (hw : t.WellFormed)

include hw

/-- The other literals of a reason are false since before. -/
theorem precedes_of_isReason (hreason : t.IsReason c s) (hs : t.slot v = some s) (hm : m ∈ c)
    (hne : m ≠ s.literal) : t.value m = some false ∧ t.Precedes m.var v := by
  obtain ⟨s', hs', hlit, hlt⟩ := hreason.2 m hm hne
  exact ⟨hw.value_eq_false_iff.mpr ⟨s', hs', hlit⟩, precedes_iff_slot.mpr ⟨s', s, hs', hs, hlt⟩⟩

/-- The levels of the other literals of a reason are bounded by the highest of them, which is at
most that of the implied literal. -/
theorem levelOfOthers_spec (hreason : t.IsReason c s) (hs : t.slot v = some s) :
    t.levelOfOthers c s.literal ≤ s.level ∧
      ∀ m ∈ c, m ≠ s.literal → ∃ s', t.slot m.var = some s' ∧ s'.literal = m.negate ∧
        s'.level ≤ t.levelOfOthers c s.literal := by
  have hle : ∀ m ∈ c, m ≠ s.literal → ∃ s', t.slot m.var = some s' ∧ s'.literal = m.negate ∧
      s'.level ≤ s.level := by
    intro m hm hne
    obtain ⟨s', hs', hlit, hlt⟩ := hreason.2 m hm hne
    exact ⟨s', hs', hlit, hw.level_mono hs' hs (Nat.le_of_lt hlt)⟩
  unfold levelOfOthers
  cases hmax : ((c.literals.toList.filter (· ≠ s.literal)).filterMap
      fun m => t.levelOf m.var).max? with
  | none =>
    refine ⟨Nat.zero_le _, fun m hm hne => ?_⟩
    obtain ⟨s', hs', -⟩ := hle m hm hne
    have := mem_levels_of_others.mpr ⟨m, hm, hne, s', hs', rfl⟩
    rw [List.max?_eq_none_iff.mp hmax] at this
    cases this
  | some n =>
    obtain ⟨hn, hgreatest⟩ := List.max?_eq_some_iff.mp hmax
    refine ⟨?_, fun m hm hne => ?_⟩
    · obtain ⟨m, hm, hne, u, hu, rfl⟩ := mem_levels_of_others.mp hn
      obtain ⟨s', hs', -, hle⟩ := hle m hm hne
      obtain rfl := Option.some.inj (hu.symm.trans hs')
      exact hle
    · obtain ⟨s', hs', hlit, -⟩ := hle m hm hne
      exact ⟨s', hs', hlit,
        hgreatest _ (mem_levels_of_others.mpr ⟨m, hm, hne, s', hs', rfl⟩)⟩

/-- A reason that is settled below the level of its literal has another literal of this level: if all
of them were lower, it would have forced its literal one level earlier. -/
theorem level_of_isReason (hreason : t.IsReason c s) (hs : t.slot v = some s)
    (hsettles : ∀ k < s.level, (t.backtrack k).Settles c) :
    s.level = t.levelOfOthers c s.literal := by
  obtain ⟨hle, hothers⟩ := hw.levelOfOthers_spec hreason hs
  refine Nat.le_antisymm (Nat.le_of_not_lt fun hlt => ?_) hle
  refine (hsettles (s.level - 1) (by omega)).not_forces (l := s.literal) ⟨hreason.1, ?_, ?_⟩
  · rw [value_backtrack_eq_none_iff hw, hw.literal_var hs]
    intro s' hs'
    obtain rfl := Option.some.inj (hs.symm.trans hs')
    omega
  · intro m hm hne
    obtain ⟨s', hs', hlit, hle'⟩ := hothers m hm hne
    exact (value_backtrack_eq_some_iff hw).mpr
      ⟨hw.value_eq_false_iff.mpr ⟨s', hs', hlit⟩, s', hs', by omega⟩

theorem explains (hreason : t.IsReason c s) (hs : t.slot v = some s)
    (hsettles : ∀ k < s.level, (t.backtrack k).Settles c) : t.Explains c s.literal := by
  have hv := hw.literal_var hs
  have hlevel := hw.level_of_isReason hreason hs hsettles
  refine ⟨hreason.1, hreason.negate_not_mem hs hv, fun m hm hne => ?_, ?_, fun k hk m => ?_⟩
  · rw [hv]
    exact hw.precedes_of_isReason hreason hs hm hne
  · simp [levelOf, hv, hs, hlevel]
  · exact (hsettles k (hlevel ▸ hk)).not_forces

/-- What implies a literal was assigned before it. -/
theorem precedes_of_implies (hj : t.Justified store) (h : t.Implies store l m) :
    t.Precedes l.var m.var := by
  obtain ⟨s, r, c, hs, rfl, hr, hc, hl, hne⟩ := implies_iff_slot.mp h
  obtain ⟨d, hd, hreason⟩ := hj hs hr
  obtain rfl := Option.some.inj (hc.symm.trans hd)
  exact (hw.precedes_of_isReason hreason hs hl hne).2

/-- So does what implies it through others. -/
theorem precedes_of_transGen (hj : t.Justified store)
    (h : Relation.TransGen (t.Implies store) l m) : t.Precedes l.var m.var := by
  induction h with
  | single h => exact hw.precedes_of_implies hj h
  | tail _ h ih => exact ih.trans (hw.precedes_of_implies hj h)

/-- A trail is explained if it is justified and every clause is settled below its level. -/
theorem explained (hj : t.Justified store) (hsettled : t.SettledBelow store) :
    t.Explained store where
  reasons l hl r hr := by
    obtain ⟨p, hp⟩ := Array.mem_iff_getElem?.mp hl
    obtain ⟨s, hs, rfl, -⟩ := hw.assigned_iff.mp hp
    simp only [reason, hs, Option.map_some, Option.some.injEq] at hr
    obtain ⟨c, hc, hreason⟩ := hj hs hr
    exact ⟨c, hc, hw.explains hreason hs fun k hk =>
      hsettled k (Nat.lt_of_lt_of_le hk (hw.level_le hs)) c
        (ClauseStore.mem_clauses_iff.mpr ⟨r, hc⟩)⟩
  acyclic _ hcycle := not_precedes_self _ (hw.precedes_of_transGen hj hcycle)

end WellFormed

end Trail

/-! ## The trails of a run -/

namespace Session

variable {σ : Type} {f : Formula} {config : Config} {policy : Policy σ} {memory : σ} {e : Engine σ}
  {s : State} {x : Session σ} {t : Trail}

/-- The trail is that of the session, or one that its next transition can pass on the way:
propagation assigns one literal after the other, and a conflict undoes levels before the learned
clause assigns a literal. -/
inductive Passes : Session σ → Trail → Prop
  | here (x : Session σ) : Passes x x.engine.trail
  | propagating {e : Engine σ} {p : Progress} (h : e.toProgress.Derives e.store p) :
      Passes ⟨e, some .propagating⟩ p.trail
  | returning (e : Engine σ) (r : ClauseRef) (k : Nat) :
      Passes ⟨e, some (.conflict r)⟩ (e.trail.backtrack k)

/-- An idle engine is new or has the trail and the store that its last run ended with. -/
theorem Reached.cases_idle (h : Reached f config policy memory ⟨e, none⟩) :
    e = .withPolicy f config policy memory ∨ ∃ e' s, Reached f config policy memory ⟨e', some s⟩ ∧
      e = e'.finish s ∧ e.trail = e'.trail ∧ e.store = e'.store := by
  rcases Relation.ReflTransGen.cases_tail h with heq | ⟨x, hx, hn⟩
  · cases heq
    exact .inl rfl
  · cases hn with
    | @finish e' s _ =>
      refine .inr ⟨e', s, hx, rfl, ?_⟩
      cases s <;> exact ⟨rfl, rfl⟩

theorem Reached.run_spec (h : Reached f config policy memory ⟨e, some s⟩) :
    e.trail.WellFormed ∧ e.trail.Justified e.store ∧ e.trail.SettledBelow e.store :=
  have hrunning := h.invariant.1
  ⟨hrunning.wellFormed, hrunning.justified, hrunning.settled⟩

/-- Every trail that a session passes is well formed, justified and settled below its level. -/
theorem Reached.passes_spec (h : Reached f config policy memory x) (hp : x.Passes t) :
    t.WellFormed ∧ t.Justified x.engine.store ∧ t.SettledBelow x.engine.store := by
  cases hp with
  | here =>
    obtain ⟨e, _ | s⟩ := x
    · rcases h.cases_idle with rfl | ⟨e', s, h', -, htrail, hstore⟩
      · exact ⟨(Engine.Sound.withPolicy f config policy memory).wellFormed,
          .of_no_slots (Trail.slot_empty _), fun k hk => absurd hk (Nat.not_lt_zero k)⟩
      · simp only [htrail, hstore]
        exact h'.run_spec
    · exact h.run_spec
  | @propagating e p hd =>
    obtain ⟨hw, hj, hsettled⟩ := h.run_spec
    have hw' := hd.wellFormed hw
    exact ⟨hw', hd.justified hw hj, hsettled.continues hw hw' (hd.continues hw)⟩
  | returning e r k =>
    obtain ⟨hw, hj, hsettled⟩ := h.run_spec
    exact ⟨hw.backtrack k, hj.backtrack hw k, hsettled.backtrack hw k⟩

/-- Between any two assignments of any run every implied literal is explained: its reason is a clause
of the store that contains it and not its negation, whose other literals were falsified before it,
the last of them at its level, and which forced nothing at a lower level. So no literal implies
itself through others. Propagation passes only such trails: it is a sequence of unit steps. -/
theorem implications_explained (h : Reached f config policy memory x) :
    (∀ t, x.Passes t → t.Explained x.engine.store) ∧
      (x.state = some .propagating → ∃ o q, x.engine.propagateClauses = .ok (o, q) ∧
        x.engine.toProgress.Derives x.engine.store q) := by
  refine ⟨fun t ht => ?_, fun hstate => ?_⟩
  · obtain ⟨hw, hj, hsettled⟩ := h.passes_spec ht
    exact hw.explained hj hsettled
  · obtain ⟨e, _ | s⟩ := x
    · cases hstate
    · obtain rfl := Option.some.inj hstate
      obtain ⟨o, q, hq, hprop, -⟩ := Engine.propagateClauses_spec h.invariant.1 h.invariant.2
      exact ⟨o, q, hq, hprop.derives⟩

/-- After the first decision of `notFirst`, its first clause explains why `x2` is true at level one.
-/
theorem notFirst_explained :
    (notFirstAfter 4).state = some (.conflict ⟨1⟩) ∧
      ∃ c, (notFirstAfter 4).engine.store.get? ⟨0⟩ = some c ∧
        (notFirstAfter 4).engine.trail.Explains c ⟨⟨2, Nat.two_pos⟩, true⟩ ∧
        (notFirstAfter 4).engine.trail.levelOfOthers c ⟨⟨2, Nat.two_pos⟩, true⟩ = 1 := by
  have hstate : (notFirstAfter 4).state = some (.conflict ⟨1⟩) := by decide +kernel
  obtain ⟨hexplained, -⟩ := implications_explained (reached_notFirstAfter hstate)
  obtain ⟨c, hc, hexplains⟩ := (hexplained _ (.here _)).reasons ⟨⟨2, Nat.two_pos⟩, true⟩
    (by decide +kernel) ⟨0⟩ (by decide +kernel)
  have hlevel : (notFirstAfter 4).engine.trail.levelOf ⟨2, Nat.two_pos⟩ = some 1 := by
    decide +kernel
  exact ⟨hstate, c, hc, hexplains, Option.some.inj (hexplains.level.symm.trans hlevel)⟩

end Session

end ClauseLearning
