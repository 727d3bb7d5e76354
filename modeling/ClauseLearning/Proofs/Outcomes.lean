/-!
# Functions that may fail

When a computation in `Except` succeeds or fails, in terms of its parts.
-/

namespace ClauseLearning

variable {ε ε' α β : Type}

/-- A sequence succeeds if both parts do. -/
theorem bind_eq_ok_iff {x : Except ε α} {g : α → Except ε β} {b : β} :
    x >>= g = .ok b ↔ ∃ a, x = .ok a ∧ g a = .ok b := by
  cases x <;> simp [bind, Except.bind]

/-- A sequence fails if one of the parts does. -/
theorem bind_eq_error_iff {x : Except ε α} {g : α → Except ε β} {e : ε} :
    x >>= g = .error e ↔ x = .error e ∨ ∃ a, x = .ok a ∧ g a = .error e := by
  cases x <;> simp [bind, Except.bind]

theorem mapError_eq_ok_iff {x : Except ε α} {g : ε → ε'} {a : α} :
    x.mapError g = .ok a ↔ x = .ok a := by
  cases x with
  | error e =>
    change Except.error (g e) = .ok a ↔ _
    simp
  | ok b =>
    change Except.ok b = .ok a ↔ _
    simp

/-- How a computation fails, if it does. -/
def failure? : Except ε α → Option ε
  | .ok _ => none
  | .error e => some e

theorem failure?_eq_some_iff {x : Except ε α} {e : ε} : failure? x = some e ↔ x = .error e := by
  cases x <;> simp [failure?]

/-- A result made of another one fails where that one fails. -/
theorem failure?_map {x : Except ε α} {f : α → β} :
    failure? (do return f (← x)) = failure? x := by
  cases x <;> rfl

/-- Of two computations in sequence, the first that fails decides. -/
theorem failure?_append {x y : Except ε (List α)} :
    failure? (do return (← x) ++ (← y)) = (failure? x).or (failure? y) := by
  cases x <;> cases y <;> rfl

/-- Where a function never fails, a list of its results exists. -/
theorem exists_mapM {g : α → Except ε β} {xs : List α} (h : ∀ a ∈ xs, ∃ b, g a = .ok b) :
    ∃ bs, xs.mapM g = .ok bs := by
  induction xs with
  | nil => exact ⟨[], rfl⟩
  | cons a xs ih =>
    obtain ⟨b, hb⟩ := h a List.mem_cons_self
    obtain ⟨bs, hbs⟩ := ih fun a ha => h a (List.mem_cons_of_mem _ ha)
    refine ⟨b :: bs, ?_⟩
    rw [List.mapM_cons, hb, hbs]
    rfl

end ClauseLearning
