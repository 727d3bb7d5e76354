import ClauseLearning.Logic.Semantics

/-!
# Exhaustive search

Tries the values of the variables in ascending order, true before false, and gives up a branch as
soon as a clause is false in it. It is meant for formulas with few variables.

* `Exhaustive.search`: the search below a partial assignment.
* `exhaustive`: the search for a formula.
-/

namespace ClauseLearning

namespace Exhaustive

/-- The values chosen so far, each variable once. -/
structure Values where
  entries : List (Var × Bool)
deriving DecidableEq

namespace Values

/-- The value of a variable, if it has one. -/
def get? (vs : Values) (v : Var) : Option Bool := vs.entries.lookup v

/-- Takes the value of a variable away. -/
def erase (vs : Values) (v : Var) : Values := ⟨vs.entries.filter (·.1 ≠ v)⟩

/-- Gives the variable a value in place of the one it has. -/
def insert (vs : Values) (v : Var) (b : Bool) : Values := ⟨(v, b) :: (vs.erase v).entries⟩

/-- Every literal of the clause is false. -/
def falsifies (vs : Values) (c : Clause) : Bool :=
  c.literals.all fun l => vs.get? l.var == some !l.positive

end Values

/-- The values chosen so far, and every value that was tried. -/
structure Progress where
  values : Values
  tried : Array (Var × Bool)

/-- Tries a value of a variable. -/
def Progress.assign (p : Progress) (v : Var) (b : Bool) : Progress :=
  ⟨p.values.insert v b, p.tried.push (v, b)⟩

/-- Whether some values of the variables make every clause true; a variable that has no such value
loses its last one. -/
def search (f : Formula) : List Var → Progress → Bool × Progress
  | [], p => (!f.any p.values.falsifies, p)
  | v :: rest, p =>
    if f.any p.values.falsifies then (false, p)
    else match search f rest (p.assign v true) with
      | (true, p) => (true, p)
      | (false, p) =>
        match search f rest (p.assign v false) with
        | (true, p) => (true, p)
        | (false, p) => (false, { p with values := p.values.erase v })

/-- The greatest number of variables that is searched. -/
def maxVariables : Nat := 24

/-- Why a formula is not searched. -/
inductive Error where
  | tooManyVariables (count : Nat)
deriving DecidableEq

/-- What is reported for a formula that is not searched. -/
def Error.message : Error → String
  | .tooManyVariables n =>
    "Too many variables for brute force: " ++ toString n ++ " > " ++ toString maxVariables

/-- A tried value as a line of a log. -/
def line : Var × Bool → String
  | (v, b) => "TRACE Set " ++ v.text ++ " = " ++ toString b

end Exhaustive

/-- Decides a formula of few variables by trying all values. -/
def exhaustive (f : Formula) : Except Exhaustive.Error (Bool × Exhaustive.Progress) :=
  let vars := f.vars
  if Exhaustive.maxVariables < vars.length then .error (.tooManyVariables vars.length)
  else .ok (Exhaustive.search f vars ⟨⟨[]⟩, #[]⟩)

end ClauseLearning
