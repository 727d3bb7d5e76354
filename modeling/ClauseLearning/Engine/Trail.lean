import ClauseLearning.Engine.ClauseStore

/-!
# The trail

The trail is the current partial assignment with its history: which literal was assigned in which
order, at which level and why. Each variable has a slot, found by its rank among the variables of the
formula, and each level remembers where it starts, so undoing a level touches only its own
assignments.

* `Trail.push`, `Trail.backtrack`: one assignment more; all assignments above a level less.
* `Trail.value`: the truth value of a literal.
* `Trail.table`: the assignments, one in a line.
-/

namespace ClauseLearning

/-- Why a variable is assigned. -/
inductive Reason where
  | decision
  /-- Every other literal of the clause is false. -/
  | clause (r : ClauseRef)
deriving DecidableEq

/-- What is known about an assigned variable. -/
structure Slot where
  literal : Literal
  level : Nat
  reason : Reason
  /-- The place in the order of assignments. -/
  position : Nat
deriving DecidableEq

/-- A partial assignment of the variables of a formula, in the order it was made. -/
structure Trail where
  /-- The variables that can be assigned, in ascending order. -/
  vars : Array Var
  /-- One slot for each variable. -/
  slots : Array (Option Slot)
  /-- The assigned literals in order. -/
  assigned : Array Literal
  /-- For each level above the root, the position of its decision. -/
  starts : Array Nat
deriving DecidableEq

namespace Trail

/-- The trail over these variables with nothing assigned. -/
def empty (vs : Array Var) : Trail := ⟨vs, Array.replicate vs.size none, #[], #[]⟩

/-- `empty` for variables in strictly ascending order, and a fault for others. -/
def ofVariables (vs : Array Var) : Except Fault Trail :=
  if Ascending.Sorted Var.id vs.toList then .ok (empty vs) else .error .unorderedVariables

/-! ## Queries -/

/-- The number of variables that can be assigned. -/
def numVariables (t : Trail) : Nat := t.vars.size

/-- The rank of a variable of the trail. -/
def index (t : Trail) (v : Var) : Option Nat := Ascending.search Var.id t.vars v.id

/-- A dense number for each literal over the variables of the trail. -/
def code (t : Trail) (l : Literal) : Option Nat :=
  (t.index l.var).map fun i => 2 * i + (if l.positive then 0 else 1)

/-- The current level; the root level is zero. -/
def level (t : Trail) : Nat := t.starts.size

/-- The number of assigned variables. -/
def size (t : Trail) : Nat := t.assigned.size

/-- The decision literals, from level one up. -/
def decisions (t : Trail) : List Literal := t.starts.toList.filterMap (t.assigned[·]?)

/-- What is known about a variable of the trail, once it is assigned. -/
def slot (t : Trail) (v : Var) : Option Slot := (t.index v).bind fun i => t.slots[i]?.join

/-- The literal of `v` that is assigned. -/
def assignment (t : Trail) (v : Var) : Option Literal := (t.slot v).map Slot.literal

/-- The variable is assigned. -/
def isAssigned (t : Trail) (v : Var) : Bool := (t.slot v).isSome

/-- The level at which `v` was assigned. -/
def levelOf (t : Trail) (v : Var) : Option Nat := (t.slot v).map Slot.level

/-- Why `v` is assigned. -/
def reason (t : Trail) (v : Var) : Option Reason := (t.slot v).map Slot.reason

/-- The place of `v` in the order of assignments. -/
def position (t : Trail) (v : Var) : Option Nat := (t.slot v).map Slot.position

/-- The truth value of a literal, `none` while its variable is unassigned. -/
def value (t : Trail) (l : Literal) : Option Bool := (t.assignment l.var).map (· == l)

/-! ## Changes -/

/-- Assigns a literal at the current level. That its variable is not assigned yet is a debug assertion:
a build without them does not stop at a variable that is assigned twice. -/
def push (t : Trail) (l : Literal) (r : Reason) : Except Fault Trail :=
  match t.index l.var with
  | none => .error (.notVariable l.var)
  | some i =>
    if t.slots[i]?.join.isSome then .error (.alreadyAssigned l.var)
    else .ok { t with
      slots := t.slots.setIfInBounds i (some ⟨l, t.level, r, t.size⟩)
      assigned := t.assigned.push l }

/-- Opens a level with the literal as its decision. -/
def pushDecision (t : Trail) (l : Literal) : Except Fault Trail :=
  { t with starts := t.starts.push t.size }.push l .decision

/-- Assigns a literal that a clause forces. -/
def pushImplied (t : Trail) (l : Literal) (r : ClauseRef) : Except Fault Trail :=
  t.push l (.clause r)

/-- The slots without those of the given literals. -/
def slotsWithout (t : Trail) (ls : List Literal) : Array (Option Slot) :=
  ls.foldl (fun slots l =>
    match t.index l.var with
    | some i => slots.setIfInBounds i none
    | none => slots) t.slots

/-- Keeps the first `n` assignments and the given level. -/
def truncate (t : Trail) (n level : Nat) : Trail :=
  { t with
    slots := t.slotsWithout (t.assigned.toList.drop n)
    assigned := t.assigned.take n
    starts := t.starts.take level }

/-- Undoes every assignment above the level. -/
def backtrack (t : Trail) (level : Nat) : Trail :=
  match t.starts[level]? with
  | some start => t.truncate start level
  | none => t

/-- Undoes every assignment. -/
def reset (t : Trail) : Trail := (t.backtrack 0).truncate 0 0

/-! ## The trail as a table -/

/-- Blanks that fill a text up to a width. -/
def padding (width : Nat) (s : String) : String := String.ofList (List.replicate (width - s.length) ' ')

/-- The greatest number among the assigned variables. -/
def greatestId (t : Trail) : Nat := (t.assigned.toList.map (·.var.id)).foldl max 0

/-- What stands for a reason: the clause, or `Λ` for a decision. -/
def reasonText (store : ClauseStore) : Reason → Except Fault String
  | .decision => .ok "Λ"
  | .clause r => do
    let c ← store.fetch r
    return c.text

/-- The level is set to the right, in the width of the current level; the literal to the left, in a
width that holds every assigned literal. -/
def row (t : Trail) (store : ClauseStore) (s : Slot) : Except Fault String := do
  let level := toString s.level
  let reason ← reasonText store s.reason
  return padding (toString t.level).length level ++ level ++ " | " ++ s.literal.text ++
    padding ((toString t.greatestId).length + 2) s.literal.text ++ " | " ++ reason ++ "\n"

/-- The assignments in order, with the reason clauses taken from the store. -/
def table (t : Trail) (store : ClauseStore) : Except Fault String := do
  let rows ← (t.assigned.toList.filterMap fun l => t.slot l.var).mapM (t.row store)
  return String.join rows

end Trail

/-! ## Clauses under a trail -/

/-- A clause under a partial assignment. -/
inductive Status where
  | satisfied
  /-- All literals are false but one, which is unassigned. -/
  | unit (l : Literal)
  | falsified
  | unresolved
deriving DecidableEq

/-- The state of the clause under the trail. -/
def Clause.status (c : Clause) (t : Trail) : Status :=
  if c.literals.any (t.value · == some true) then .satisfied
  else match c.literals.toList.filter (t.value · == none) with
    | [] => .falsified
    | [l] => .unit l
    | _ => .unresolved

end ClauseLearning
