import ClauseLearning.Logic.Semantics

/-!
# The first model of a formula

Models are compared variable by variable, in ascending order, with true before false.

* `FirstModel.eq`: a formula has one first model.
* `NoLater.of_head`, `NoLater.cons`: the comparison of two assignments, one variable at a time.
-/

namespace ClauseLearning

theorem Formula.sorted_vars (f : Formula) : Ascending.Sorted Var.id f.vars :=
  Ascending.sorted_ofList _

/-- `a` is the first model of the formula: among the variables of the formula, in ascending order,
the first on which another model differs is true in `a`. -/
structure FirstModel (f : Formula) (a : Assignment) : Prop where
  satisfies : Satisfies a f
  first : ∀ {b}, Satisfies b f → (∀ v ∈ f.vars, b v.id = a v.id) ∨
    ∃ v ∈ f.vars, (∀ w ∈ f.vars, w.id < v.id → b w.id = a w.id) ∧ a v.id = true ∧ b v.id = false

/-- Two first models agree on the variables of the formula. -/
theorem FirstModel.eq {f : Formula} {a b : Assignment} (ha : FirstModel f a) (hb : FirstModel f b)
    {v : Var} (hv : v ∈ f.vars) : a v.id = b v.id := by
  rcases ha.first hb.satisfies with heq | ⟨w, hw, hlt, haw, hbw⟩
  · exact (heq v hv).symm
  · rcases hb.first ha.satisfies with heq | ⟨u, hu, hlt', hbu, hau⟩
    · exact heq v hv
    · -- Neither of the two places where they differ can come first.
      have h₁ : ¬w.id < u.id := fun h => by
        have := hlt' w hw h
        rw [haw, hbw] at this
        cases this
      have h₂ : ¬u.id < w.id := fun h => by
        have := hlt u hu h
        rw [hau, hbu] at this
        cases this
      have : w = u := Var.ext_id (by omega)
      subst this
      rw [haw] at hau
      cases hau

/-! ## Comparing assignments -/

/-- The first of the variables, in ascending order, on which `b` differs from `a` is true in `a`. -/
def NoLater (vars : List Var) (a b : Assignment) : Prop :=
  (∀ v ∈ vars, b v.id = a v.id) ∨
    ∃ v ∈ vars, (∀ w ∈ vars, w.id < v.id → b w.id = a w.id) ∧ a v.id = true ∧ b v.id = false

namespace NoLater

variable {v : Var} {vars : List Var} {a b : Assignment}

/-- Where the smallest variable is true in `a` and false in `b`, the others do not matter. -/
theorem of_head (hsorted : Ascending.Sorted Var.id (v :: vars)) (ha : a v.id = true)
    (hb : b v.id = false) : NoLater (v :: vars) a b := by
  refine .inr ⟨v, List.mem_cons_self, fun w hw hlt => ?_, ha, hb⟩
  rcases List.mem_cons.mp hw with rfl | hw
  · exact absurd hlt (Nat.lt_irrefl _)
  · exact absurd hlt (Nat.lt_asymm ((List.pairwise_cons.mp hsorted).1 w hw))

/-- Where the assignments agree on the smallest variable, the others decide. -/
theorem cons (hv : b v.id = a v.id) (h : NoLater vars a b) : NoLater (v :: vars) a b := by
  rcases h with h | ⟨w, hw, hsmaller, ha, hb⟩
  · exact .inl (List.forall_mem_cons.mpr ⟨hv, h⟩)
  · exact .inr ⟨w, List.mem_cons_of_mem v hw,
      List.forall_mem_cons.mpr ⟨fun _ => hv, hsmaller⟩, ha, hb⟩

end NoLater

end ClauseLearning
