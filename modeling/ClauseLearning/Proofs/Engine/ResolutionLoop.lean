import ClauseLearning.Proofs.Engine.ImplicationPoints

/-!
# The resolution loop

The resolution of a falsified clause ends on every trail whose reasons come before what they imply,
whether or not an engine has come to this trail. The clause may grow, and the number of its literals
of the level may stay the same. What goes down are the positions of its literals: one of them gives
way to smaller ones.

* `Analysis.wellFounded_passes`: no sequence of passes goes on for ever.
* `Analysis.Recurs`: a variable that was resolved enters the clause again and is resolved again.
* `Analysis.not_recurs`: this never happens when the latest assignment is resolved first.
* `Session.exists_recurs`: in the other two orders it does.
* `Analysis.resolution_ends`: the loop as a whole.
-/

namespace ClauseLearning

namespace Analysis

variable {store : ClauseStore} {t : Trail} {order : ResolutionOrder} {c d : Clause} {v : Var}

/-- One pass of the loop turns `c` into `d`. -/
def Passes (store : ClauseStore) (t : Trail) (order : ResolutionOrder) (c d : Clause) : Prop :=
  step store t order c = .ok (.resolved d)

/-- One pass of the loop resolves the variable `v`. -/
def PassesOn (store : ClauseStore) (t : Trail) (order : ResolutionOrder) (v : Var) (c d : Clause) :
    Prop :=
  (pivot t order c).map (fun x => x.1.var) = some v ∧ Passes store t order c d

/-- On the way from `c` the variable `v` is resolved and is gone; later it has come back and is
resolved again. -/
def Recurs (store : ClauseStore) (t : Trail) (order : ResolutionOrder) (c : Clause) (v : Var) :
    Prop :=
  ∃ c₁ c₂ c₃ c₄, Relation.ReflTransGen (Passes store t order) c c₁ ∧
    PassesOn store t order v c₁ c₂ ∧ v ∉ c₂.vars ∧
    Relation.ReflTransGen (Passes store t order) c₂ c₃ ∧ PassesOn store t order v c₃ c₄

theorem passes_eq_resolves : Passes store t order = Resolves store t order :=
  funext₂ fun _ _ => propext step_eq_resolved_iff

theorem wellFounded_passes (hw : t.WellFormed) (hj : t.Justified store) (order : ResolutionOrder) :
    WellFounded fun d c => Passes store t order c d := by
  rw [passes_eq_resolves]
  exact Subrelation.wf (fun h => h.weight_lt hw hj) (measure (weight t)).wf

/-- Whatever the passes lead to is falsified. -/
theorem falsifies_of_passes (hw : t.WellFormed) (hj : t.Justified store) (hf : t.Falsifies c)
    (h : Relation.ReflTransGen (Passes store t order) c d) : t.Falsifies d := by
  rw [passes_eq_resolves] at h
  induction h with
  | refl => exact hf
  | tail _ h ih => exact h.falsifies hw hj ih

/-! ## The latest assignment first -/

section ReverseTrail

variable (hw : t.WellFormed) (hj : t.Justified store)

include hw hj

/-- A pass that resolves `v` leaves only literals of the level that were assigned before `v`, and so
does a pass on one of these. -/
theorem precedes_of_passesOn {w : Var} (hf : t.Falsifies c)
    (h : PassesOn store t .reverseTrail w c d)
    (hall : w = v ∨ ∀ m ∈ atLevel t c, t.Precedes m.var v) :
    ∀ m ∈ atLevel t d, t.Precedes m.var v := by
  obtain ⟨hpivot, hpass⟩ := h
  obtain @⟨l, r, reason, -, hpivot', hr⟩ := step_eq_resolved_iff.mp hpass
  obtain ⟨hl, s, hs, hlevel, -, hreason⟩ := slot_of_pivot hj hpivot' hr
  obtain rfl : l.var = w := by simpa [hpivot'] using hpivot
  have hle : ∀ u, t.Precedes u l.var → t.Precedes u v := by
    rintro u hu
    rcases hall with rfl | hall
    · exact hu
    · exact hu.trans (hall l (mem_atLevel.mpr ⟨hl, s, hs, hlevel⟩))
  intro m hm
  obtain ⟨hmem, hcurrent⟩ := mem_atLevel.mp hm
  obtain ⟨hmem, hvar⟩ := Clause.mem_resolve.mp hmem
  have hne : m ≠ l := fun heq => hvar (congrArg Literal.var heq)
  rcases hmem with hmc | hmr
  · exact hle _ (Trail.precedes_of_pivot hw hf hpivot' (mem_atLevel.mpr ⟨hmc, hcurrent⟩) hne)
  · have hne : m ≠ s.literal := by
      rintro rfl
      exact hvar (hw.literal_var hs)
    exact hle _ (hw.precedes_of_isReason hreason hs hmr hne).2

/-- The passes after a pass on `v` find only literals of the level that were assigned before `v`. -/
theorem precedes_of_passes (hf : t.Falsifies c) (hall : ∀ m ∈ atLevel t c, t.Precedes m.var v)
    (h : Relation.ReflTransGen (Passes store t .reverseTrail) c d) :
    ∀ m ∈ atLevel t d, t.Precedes m.var v := by
  induction h with
  | refl => exact hall
  | tail hrun h ih =>
    obtain @⟨l, r, reason, -, hpivot, -⟩ := step_eq_resolved_iff.mp h
    exact precedes_of_passesOn hw hj (falsifies_of_passes hw hj hf hrun) (w := l.var)
      ⟨by rw [hpivot]; rfl, h⟩ (.inr ih)

/-- From the latest assignment backwards, no variable comes back. -/
theorem not_recurs (hf : t.Falsifies c) : ¬Recurs store t .reverseTrail c v := by
  rintro ⟨c₁, c₂, c₃, c₄, h₁, h₁₂, -, h₂₃, hpivot, h₃₄⟩
  have hf₁ := falsifies_of_passes hw hj hf h₁
  have hf₂ := falsifies_of_passes hw hj hf₁ (.single h₁₂.2)
  have hall := precedes_of_passes hw hj hf₂ (precedes_of_passesOn hw hj hf₁ h₁₂ (.inl rfl)) h₂₃
  obtain @⟨l, r, reason, -, hpivot', hr⟩ := step_eq_resolved_iff.mp h₃₄
  obtain ⟨hl, s, hs, hlevel, -⟩ := slot_of_pivot hj hpivot' hr
  obtain rfl : l.var = v := by simpa [hpivot'] using hpivot
  exact Trail.not_precedes_self _ (hall l (mem_atLevel.mpr ⟨hl, s, hs, hlevel⟩))

end ReverseTrail

/-! ## Variables that come back -/

instance (store : ClauseStore) (t : Trail) (order : ResolutionOrder) (c d : Clause) :
    Decidable (Passes store t order c d) :=
  match h : step store t order c with
  | .ok (.resolved e) => decidable_of_iff (e = d) (by simp [Passes, h])
  | .ok (.exit x) => .isFalse (by simp [Passes, h])
  | .error x => .isFalse (by simp [Passes, h])

instance (store : ClauseStore) (t : Trail) (order : ResolutionOrder) (v : Var) (c d : Clause) :
    Decidable (PassesOn store t order v c d) :=
  inferInstanceAs (Decidable (_ ∧ _))

end Analysis

namespace Session

/-- Once `x1` is decided it implies `a`, and `a` implies `b`; the two contradict each other. -/
def comingBack (a b : Var) : Formula :=
  [.ofList [⟨⟨1, Nat.one_pos⟩, false⟩, ⟨a, true⟩], .ofList [⟨a, false⟩, ⟨b, true⟩],
    .ofList [⟨a, false⟩, ⟨b, false⟩]]

/-- The session of a new engine for `comingBack` at its first conflict. -/
def comingBackConflict (order : ResolutionOrder) (a b : Var) : Session Bool :=
  next^[4] ⟨.ofFormula (comingBack a b) { resolution := order }, none⟩

theorem reached_comingBackConflict {order : ResolutionOrder} {a b : Var} {s : State}
    (hs : (comingBackConflict order a b).state = some s) :
    Reached (comingBack a b) { resolution := order } (Phase.policy .positive) false
      ⟨(comingBackConflict order a b).engine, some s⟩ := by
  rw [← hs]
  exact reaches_iterate_next 4 _

/-- If `a` is resolved before `b`, the reason of `b` brings `a` back. -/
theorem exists_recurs (order : ResolutionOrder) (h : order ≠ .reverseTrail) :
    ∃ a b c, (comingBackConflict order a b).state = some (.conflict ⟨2⟩) ∧
      (comingBackConflict order a b).engine.store.get? ⟨2⟩ = some c ∧
      Analysis.Recurs (comingBackConflict order a b).engine.store
        (comingBackConflict order a b).engine.trail order c a := by
  let x : Nat → Var := fun n => ⟨n + 1, n.succ_pos⟩
  let no : Nat → Literal := fun n => ⟨x n, false⟩
  cases order with
  | reverseTrail => exact absurd rfl h
  | smallestVariable =>
    refine ⟨x 1, x 2, .ofList [no 1, no 2], by decide +kernel, by decide +kernel, _,
      .ofList [no 0, no 2], .ofList [no 0, no 1], .ofList [no 0], .refl, ?_, ?_, .single ?_, ?_⟩ <;>
    decide +kernel
  | largestVariable =>
    refine ⟨x 2, x 1, .ofList [no 2, no 1], by decide +kernel, by decide +kernel, _,
      .ofList [no 0, no 1], .ofList [no 0, no 2], .ofList [no 0], .refl, ?_, ?_, .single ?_, ?_⟩ <;>
    decide +kernel

end Session

namespace Analysis

variable {store : ClauseStore} {t : Trail} {c : Clause}

/-- The resolution of a falsified clause ends, in every order, when at most one literal of the level
is left, and all the way the negation of each literal is true. The latest assignment first, each
variable is resolved once at most. In the other orders a variable that was resolved can come back,
and does so in some run. -/
theorem resolution_ends (hw : t.WellFormed) (hj : t.Justified store) (hf : t.Falsifies c)
    (order : ResolutionOrder) :
    (WellFounded fun d c => Passes store t order c d) ∧
    (∃ d, analyze store t order c = .ok ⟨d, backjumpLevel t d, .finished⟩ ∧
      Relation.ReflTransGen (Passes store t order) c d ∧ (atLevel t d).length ≤ 1) ∧
    (∀ d, Relation.ReflTransGen (Passes store t order) c d →
      ∀ l ∈ d, t.value l.negate = some true) ∧
    (order = .reverseTrail → ∀ v, ¬Recurs store t order c v) ∧
    ∀ o ≠ .reverseTrail, ∃ f e r c v,
      Session.Reached f { resolution := o } (Phase.policy .positive) false
        ⟨e, some (.conflict r)⟩ ∧
      e.store.get? r = some c ∧ Recurs e.store e.trail o c v := by
  refine ⟨wellFounded_passes hw hj order, ?_, fun d hd l hl => ?_, ?_, fun o ho => ?_⟩
  · rw [passes_eq_resolves]
    exact exists_analyze hw hj order hf
  · exact hw.value_eq_false_iff_negate.mp (falsifies_of_passes hw hj hf hd l hl)
  · rintro rfl v
    exact not_recurs hw hj hf
  · obtain ⟨a, b, c, hstate, hc, hrecurs⟩ := Session.exists_recurs o ho
    exact ⟨_, _, _, c, a, Session.reached_comingBackConflict hstate, hc, hrecurs⟩

/-- The conflict of `x2` with `x3`, both implied by `x1`, the smallest variable resolved first. -/
def secondReturns : Session Bool :=
  Session.comingBackConflict .smallestVariable ⟨2, Nat.two_pos⟩ ⟨3, Nat.succ_pos 2⟩

/-- Its resolution leads over `x3` back to `x2`, and then to `x1`. -/
theorem secondReturns_resolved :
    secondReturns.engine.trail.WellFormed ∧
      secondReturns.engine.trail.Justified secondReturns.engine.store ∧
      ∃ c d, secondReturns.engine.store.get? ⟨2⟩ = some c ∧
        secondReturns.engine.trail.Falsifies c ∧
        analyze secondReturns.engine.store secondReturns.engine.trail .smallestVariable c =
          .ok ⟨d, backjumpLevel secondReturns.engine.trail d, .finished⟩ ∧
        d = .ofList [⟨⟨1, Nat.one_pos⟩, false⟩] ∧
        ∀ l ∈ d, secondReturns.engine.trail.value l.negate = some true := by
  have hstate : secondReturns.state = some (.conflict ⟨2⟩) := by decide +kernel
  have hreached : Session.Reached _ _ _ _ ⟨secondReturns.engine, some (.conflict ⟨2⟩)⟩ :=
    Session.reached_comingBackConflict hstate
  obtain ⟨hrunning, ⟨c, hc, hf⟩, -⟩ := hreached.invariant
  obtain ⟨-, ⟨d, hd, hpasses, -⟩, htrue, -⟩ :=
    resolution_ends hrunning.wellFormed hrunning.justified hf .smallestVariable
  refine ⟨hrunning.wellFormed, hrunning.justified, c, d, hc, hf, hd, ?_, htrue d hpasses⟩
  have hlearned : (secondReturns.engine.store.get? ⟨2⟩).map (fun c =>
      (analyze secondReturns.engine.store secondReturns.engine.trail .smallestVariable c).map
        (·.learned)) = some (.ok (.ofList [⟨⟨1, Nat.one_pos⟩, false⟩])) := by
    decide +kernel
  simp only [hc, hd, Option.map_some, Except.map, Option.some.injEq, Except.ok.injEq] at hlearned
  exact hlearned

end Analysis

end ClauseLearning
