/-!
# Variables and literals

A literal is a variable with a sign. Literals are ordered by variable, positive before negative: the
order of their codes.

* `Literal.code_inj`: the code identifies the literal.
* `Literal.code_lt_iff`: the order of codes, said on variables and signs.
-/

namespace ClauseLearning

/-- A propositional variable, identified by a positive number. -/
structure Var where
  id : Nat
  id_pos : 0 < id
deriving DecidableEq

namespace Var

/-- The variable with this number, if the number is positive. -/
def ofNat? (n : Nat) : Option Var := if h : 0 < n then some ⟨n, h⟩ else none

/-- `x` and the number of the variable. -/
def text (v : Var) : String := "x" ++ toString v.id

theorem ext_id {v w : Var} (h : v.id = w.id) : v = w := by
  cases v; cases w; cases h; rfl

end Var

/-- A variable or its negation. -/
structure Literal where
  var : Var
  positive : Bool
deriving DecidableEq

/-- Why a number denotes no literal. -/
inductive LiteralError
  | zero
deriving DecidableEq

/-- Zero is no variable number. -/
def LiteralError.message : LiteralError → String
  | .zero => "0 is not allowed for ID"

namespace Literal

/-- Twice the variable number, plus one for a negative literal. -/
def code (l : Literal) : Nat := 2 * l.var.id + (if l.positive then 0 else 1)

/-- The literal of the same variable with the other sign. -/
def negate (l : Literal) : Literal := { l with positive := !l.positive }

/-- `-3` denotes `¬x3`; zero denotes no literal. -/
def ofInt (n : Int) : Except LiteralError Literal :=
  match Var.ofNat? n.natAbs with
  | some v => .ok ⟨v, 0 < n⟩
  | none => .error .zero

/-- The number that denotes the literal. -/
def toInt (l : Literal) : Int := if l.positive then l.var.id else -l.var.id

/-- The variable, after `¬` for a negative literal. -/
def text (l : Literal) : String := if l.positive then l.var.text else "¬" ++ l.var.text

instance : Ord Literal := ⟨fun a b => compare a.code b.code⟩

@[simp] theorem negate_var (l : Literal) : l.negate.var = l.var := rfl

@[simp] theorem negate_positive (l : Literal) : l.negate.positive = !l.positive := rfl

@[simp] theorem negate_negate (l : Literal) : l.negate.negate = l := by
  cases l; simp [negate]

theorem negate_inj {l m : Literal} (h : l.negate = m.negate) : l = m := by
  rw [← negate_negate l, h, negate_negate]

theorem negate_ne (l : Literal) : l.negate ≠ l := by
  cases l with
  | mk v p => cases p <;> simp [negate]

/-- Two literals of one variable are equal or each other's negation. -/
theorem eq_or_eq_negate {a b : Literal} (h : a.var = b.var) : a = b ∨ a = b.negate := by
  cases a with
  | mk v p =>
    cases b with
    | mk w q =>
      cases h
      cases p <;> cases q <;> simp [negate]

theorem code_inj {a b : Literal} (h : a.code = b.code) : a = b := by
  cases a with
  | mk v p =>
    cases b with
    | mk w q =>
      cases p <;> cases q <;> simp only [code, Bool.false_eq_true, ↓reduceIte] at h
      · rw [Var.ext_id (v := v) (w := w) (by omega)]
      · omega
      · omega
      · rw [Var.ext_id (v := v) (w := w) (by omega)]

/-- The smaller variable comes first; of one variable, the positive literal. -/
theorem code_lt_iff {a b : Literal} :
    a.code < b.code ↔ a.var.id < b.var.id ∨ a.var = b.var ∧ a.positive ∧ ¬b.positive := by
  cases a with
  | mk v p =>
    cases b with
    | mk w q =>
      have hvw : v = w ↔ v.id = w.id := ⟨fun h => by rw [h], Var.ext_id⟩
      cases p <;> cases q <;> simp [code, hvw] <;> omega

/-- No literal lies between a variable and its negation. -/
theorem code_negate {l : Literal} (h : l.positive) : l.negate.code = l.code + 1 := by
  simp [code, negate, h]

theorem ofInt_toInt (l : Literal) : ofInt l.toInt = .ok l := by
  obtain ⟨⟨n, hn⟩, p⟩ := l
  cases p <;> simp [ofInt, toInt, Var.ofNat?, hn]

theorem toInt_inj {l m : Literal} (h : l.toInt = m.toInt) : l = m := by
  have := ofInt_toInt l
  rw [h, ofInt_toInt m] at this
  exact (Except.ok.inj this).symm

theorem toInt_ne_zero (l : Literal) : l.toInt ≠ 0 := by
  have := l.var.id_pos
  unfold toInt
  split <;> omega

/-- Every number but zero denotes a literal. -/
theorem exists_toInt {n : Int} (h : n ≠ 0) : ∃ l : Literal, l.toInt = n := by
  refine ⟨⟨⟨n.natAbs, Int.natAbs_pos.mpr h⟩, 0 < n⟩, ?_⟩
  unfold toInt
  by_cases hn : 0 < n
  · simp only [hn, decide_true, ↓reduceIte]
    omega
  · simp only [hn, decide_false, Bool.false_eq_true, ↓reduceIte]
    omega

end Literal

end ClauseLearning
