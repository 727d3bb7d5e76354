import ClauseLearning.Logic.Clause

/-!
# Truth of literals, clauses and formulas

A formula is a list of clauses, read as their conjunction. An assignment gives a value to every
variable number.

* `Clause.holds_resolve`: a resolvent follows from its two clauses.
-/

namespace ClauseLearning

/-- A value for every variable number. -/
abbrev Assignment := Nat → Bool

/-- A conjunction of clauses. -/
abbrev Formula := List Clause

/-- The variables of a formula, in ascending order. -/
def Formula.vars (f : Formula) : List Var := Ascending.ofList Var.id (f.flatMap Clause.vars)

theorem Formula.mem_vars {v : Var} {f : Formula} :
    v ∈ f.vars ↔ ∃ c ∈ f, ∃ l ∈ c, l.var = v := by
  simp [vars, Ascending.mem_ofList (fun _ _ => Var.ext_id), Clause.mem_vars]

/-- The literal is true under the assignment. -/
def Literal.Holds (a : Assignment) (l : Literal) : Prop := a l.var.id = l.positive

/-- Some literal of the clause is true. -/
def Clause.Holds (a : Assignment) (c : Clause) : Prop := ∃ l ∈ c, l.Holds a

/-- Every clause of the formula is true. -/
def Satisfies (a : Assignment) (f : Formula) : Prop := ∀ c ∈ f, c.Holds a

/-- Some assignment makes the formula true. -/
def Satisfiable (f : Formula) : Prop := ∃ a, Satisfies a f

/-- The clause is true under every assignment that makes the formula true. -/
def Entails (f : Formula) (c : Clause) : Prop := ∀ a, Satisfies a f → c.Holds a

instance (a : Assignment) (l : Literal) : Decidable (l.Holds a) :=
  inferInstanceAs (Decidable (_ = _))

theorem Literal.holds_negate {a : Assignment} {l : Literal} : l.negate.Holds a ↔ ¬l.Holds a := by
  simp only [Literal.Holds, Literal.negate_var, Literal.negate_positive]
  cases a l.var.id <;> cases l.positive <;> decide

/-- A resolvent on `v` holds where the two clauses hold, one without the positive and one without
the negative literal of `v`. -/
theorem Clause.holds_resolve {a : Assignment} {v : Var} {c d : Clause} {p : Bool}
    (hc : c.Holds a) (hd : d.Holds a) (hcp : ⟨v, p⟩ ∉ c) (hdp : ⟨v, !p⟩ ∉ d) :
    (resolve v c d).Holds a := by
  obtain ⟨l, hl, hla⟩ := hc
  obtain ⟨m, hm, hma⟩ := hd
  by_cases h : l.var = v
  · by_cases h' : m.var = v
    · obtain ⟨lv, lp⟩ := l
      obtain ⟨mv, mp⟩ := m
      simp only at h h'
      subst h h'
      simp only [Literal.Holds] at hla hma
      have hlp : lp ≠ p := by rintro rfl; exact hcp hl
      have hmp : mp ≠ !p := by rintro rfl; exact hdp hm
      cases p <;> cases lp <;> cases mp <;> simp_all
    · exact ⟨m, mem_resolve.mpr ⟨.inr hm, h'⟩, hma⟩
  · exact ⟨l, mem_resolve.mpr ⟨.inl hl, h⟩, hla⟩

end ClauseLearning
