import ClauseLearning.Engine.Trail
import ClauseLearning.Engine.Config

/-!
# Decision policies

A policy chooses the next decision from the trail and from what it remembers of its earlier calls.
Its answers are not checked here: it may answer nothing, or a literal that cannot be assigned.

* `Policy.positiveFirst`, `Policy.alternating`: the smallest unassigned variable.
* `Policy.scripted`: given answers first, then another policy.
* `Policy.recorded`: another policy, with a record of its calls.
-/

namespace ClauseLearning

/-- A way to choose decisions, with a memory of type `σ`. -/
structure Policy (σ : Type) where
  /-- The next decision and the new memory, for the trail and the variables of the formula. -/
  choose : σ → Trail → Array Var → Option Literal × σ

namespace Policy

variable {σ : Type}

/-- The smallest variable that is not assigned. -/
def firstUnassigned (t : Trail) (vs : Array Var) : Option Var := vs.find? fun v => !t.isAssigned v

/-- The smallest unassigned variable, made true. -/
def positiveFirst : Policy σ where
  choose memory t vs := ((firstUnassigned t vs).map fun v => ⟨v, true⟩, memory)

/-- The smallest unassigned variable, made true and false in turns; the memory says whether it is
false next. -/
def alternating : Policy Bool where
  choose negativeNext t vs :=
    match firstUnassigned t vs with
    | some v => (some ⟨v, !negativeNext⟩, !negativeNext)
    | none => (none, negativeNext)

/-- No decision at all. -/
def stopping : Policy σ where
  choose memory _ _ := (none, memory)

/-- Gives the answers of a script, then those of another policy. If asked to skip, it passes over the
literals of the script whose variable is assigned. -/
def scripted (skipAssigned : Bool) (rest : Policy σ) : Policy (List (Option Literal) × σ) where
  choose := fun (script, memory) t vs =>
    let skip (answer : Option Literal) := skipAssigned && answer.any fun l => t.isAssigned l.var
    match script.dropWhile skip with
    | answer :: script => (answer, script, memory)
    | [] =>
      let (answer, memory) := rest.choose memory t vs
      (answer, [], memory)

/-- A call of a policy: the trail before the decision, and the answer. -/
structure Call where
  trail : Trail
  answer : Option Literal

/-- Answers as another policy and keeps its calls in order. -/
def recorded (policy : Policy σ) : Policy (Array Call × σ) where
  choose := fun (calls, memory) t vs =>
    let (answer, memory) := policy.choose memory t vs
    (answer, calls.push ⟨t, answer⟩, memory)

end Policy

/-- The policy of a phase; its memory starts as `false`. -/
def Phase.policy : Phase → Policy Bool
  | .positive => .positiveFirst
  | .alternating => .alternating

end ClauseLearning
