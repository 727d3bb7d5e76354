import ClauseLearning.Logic.Semantics
import ClauseLearning.Engine.Fault

/-!
# The clause store

Clauses under permanent references: first those of the formula, then the learned ones in the order
they were learned. Nothing is ever changed or removed.

* `ClauseStore.get?_push`: an appended clause leaves the earlier references as they are.
-/

namespace ClauseLearning

/-- The place of a clause in the store. -/
structure ClauseRef where
  index : Nat
deriving DecidableEq

/-- `c` and the place. -/
def ClauseRef.text (r : ClauseRef) : String := "c" ++ toString r.index

/-- The clauses of a formula, then the clauses learned from them. -/
structure ClauseStore where
  clauses : Array Clause
  /-- The number of clauses of the formula, which come first. -/
  formulaSize : Nat
deriving DecidableEq

namespace ClauseStore

/-- The store of a formula, with nothing learned. -/
def ofFormula (f : Formula) : ClauseStore := ⟨f.toArray, f.length⟩

/-- The number of clauses. -/
def size (s : ClauseStore) : Nat := s.clauses.size

/-- The reference of the next clause. -/
def nextRef (s : ClauseStore) : ClauseRef := ⟨s.size⟩

/-- Appends a learned clause, under `nextRef`. -/
def push (s : ClauseStore) (c : Clause) : ClauseStore := { s with clauses := s.clauses.push c }

/-- The clause of a reference, if the store has one. -/
def get? (s : ClauseStore) (r : ClauseRef) : Option Clause := s.clauses[r.index]?

/-- The clause of a reference that the store has given out. -/
def fetch (s : ClauseStore) (r : ClauseRef) : Except Fault Clause :=
  match s.get? r with
  | some c => .ok c
  | none => .error (.unknownClause r.index)

/-- The clauses of the formula. -/
def formula (s : ClauseStore) : Formula := s.clauses.toList.take s.formulaSize

/-- The clauses appended to the formula. -/
def learned (s : ClauseStore) : List Clause := s.clauses.toList.drop s.formulaSize

/-- Every clause with its reference, in order. -/
def entries (s : ClauseStore) : List (ClauseRef × Clause) :=
  s.clauses.toList.zipIdx.map fun (c, i) => (⟨i⟩, c)

/-- The variables of the formula, in ascending order. -/
def vars (s : ClauseStore) : Array Var := s.formula.vars.toArray

@[simp] theorem size_push (s : ClauseStore) (c : Clause) : (s.push c).size = s.size + 1 := by
  simp [push, size]

@[simp] theorem get?_push_nextRef (s : ClauseStore) (c : Clause) :
    (s.push c).get? s.nextRef = some c := by
  simp [get?, push, nextRef, size]

theorem get?_push {s : ClauseStore} {c d : Clause} {r : ClauseRef} (h : s.get? r = some d) :
    (s.push c).get? r = some d := by
  obtain ⟨hi, hd⟩ := Array.getElem?_eq_some_iff.mp h
  simp [get?, push, Array.getElem?_push_lt hi, hd]

theorem sorted_vars (s : ClauseStore) : Ascending.Sorted Var.id s.vars.toList :=
  Ascending.sorted_ofList _

end ClauseStore

end ClauseLearning
