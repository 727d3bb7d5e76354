import ClauseLearning.Logic.Expr

/-!
# Conjunctive normal form

Any tree that shows its nodes as conjunctions, disjunctions and literals can be flattened to
clauses: an and-tree of or-trees of literals. A node out of place is reported.

* `flatten`: the clauses from left to right, by a stack of nodes still to visit.
* `CnfNode Expr`: expressions as such trees.
-/

namespace ClauseLearning

/-- What a node is, as far as conjunctive normal form is concerned. -/
inductive NodeKind where
  | and
  | or
  | literal (l : Literal)
  | unsupported
deriving DecidableEq

/-- A finite tree whose nodes may take part in a conjunctive normal form. The weight of a node
bounds the size of the tree below it. -/
class CnfNode (ν : Type) where
  kind : ν → NodeKind
  /-- The two operands of an `and` or an `or`. -/
  operands : ν → Option (ν × ν)
  /-- Whether the node may stand in a conjunctive normal form at all. -/
  isCnf : ν → Bool := fun n => kind n != .unsupported
  text : ν → String
  weight : ν → Nat
  weight_operands : ∀ {n a b}, operands n = some (a, b) → weight a + weight b < weight n

/-- Why a tree has no clauses. -/
inductive NormalFormError where
  /-- The text of the node out of place. -/
  | notCnf (node : String)
  /-- A node said to be allowed is of no known kind. -/
  | unsupportedNode
deriving DecidableEq

namespace NormalFormError

/-- The longest text of a node that is reported in full. -/
def maxNodeWidth : Nat := 80

/-- The node out of place; a long text is cut and ends in `…`. -/
def ofText (text : String) : NormalFormError :=
  let cs := text.toList
  .notCnf (if maxNodeWidth < cs.length then String.ofList (cs.take maxNodeWidth ++ ['…']) else text)

/-- What is reported for a tree that has no clauses. -/
def message : NormalFormError → String
  | notCnf node => "Expression is not in CNF: " ++ node
  | unsupportedNode => "internal error: entered unreachable code: Checked by is_cnf_node"

end NormalFormError

section Flatten

variable {ν : Type} [CnfNode ν]

/-- A bound on the visits that a stack of nodes still needs. -/
def stackWeight (stack : List ν) : Nat :=
  stack.foldr (fun n total => 2 * CnfNode.weight n + 1 + total) 0

theorem stackWeight_tail {n : ν} {rest : List ν} : stackWeight rest < stackWeight (n :: rest) := by
  simp [stackWeight]

theorem stackWeight_operands {n a b : ν} {rest : List ν}
    (h : CnfNode.operands n = some (a, b)) :
    stackWeight (a :: b :: rest) < stackWeight (n :: rest) := by
  have := CnfNode.weight_operands h
  simp [stackWeight]; omega

/-- The literals of the disjunctions on the stack, from left to right. -/
def literalsOf : List ν → Except NormalFormError (List Literal)
  | [] => .ok []
  | n :: rest =>
    match CnfNode.kind n with
    | .literal l => do
      let ls ← literalsOf rest
      return l :: ls
    | .or =>
      match _h : CnfNode.operands n with
      | some (a, b) => literalsOf (a :: b :: rest)
      | none => .error (.ofText (CnfNode.text n))
    | .and | .unsupported => .error (.ofText (CnfNode.text n))
termination_by stack => stackWeight stack
decreasing_by
  · exact stackWeight_tail
  · exact stackWeight_operands (by assumption)

/-- The clause of a disjunction of literals. -/
def clauseOf (n : ν) : Except NormalFormError Clause := do
  let ls ← literalsOf [n]
  return Clause.ofList ls

/-- The clauses of the conjunctions on the stack, from left to right. -/
def clausesOf : List ν → Except NormalFormError (List Clause)
  | [] => .ok []
  | n :: rest =>
    if !CnfNode.isCnf n then .error (.ofText (CnfNode.text n))
    else match CnfNode.kind n with
      | .and =>
        match _h : CnfNode.operands n with
        | some (a, b) => clausesOf (a :: b :: rest)
        | none => .error (.ofText (CnfNode.text n))
      | .or | .literal _ => do
        let c ← clauseOf n
        let cs ← clausesOf rest
        return c :: cs
      | .unsupported => .error .unsupportedNode
termination_by stack => stackWeight stack
decreasing_by
  · exact stackWeight_operands (by assumption)
  · exact stackWeight_tail

/-- The clauses of a tree in conjunctive normal form, from left to right. -/
def flatten (root : ν) : Except NormalFormError (List Clause) := clausesOf [root]

end Flatten

/-! ## Expressions -/

namespace Expr

/-- A variable or a negated variable is a literal unless its number is zero. -/
def nodeKind : Expr → NodeKind
  | and .. => .and
  | or .. => .or
  | var id => match Var.ofNat? id with
    | some v => .literal ⟨v, true⟩
    | none => .unsupported
  | not (var id) => match Var.ofNat? id with
    | some v => .literal ⟨v, false⟩
    | none => .unsupported
  | _ => .unsupported

/-- The two sides of a conjunction or a disjunction. -/
def operands : Expr → Option (Expr × Expr)
  | and l r | or l r => some (l, r)
  | _ => none

/-- The number of nodes. -/
def nodes : Expr → Nat
  | and l r | or l r => l.nodes + r.nodes + 1
  | not e => e.nodes + 1
  | _ => 1

instance : CnfNode Expr where
  kind := nodeKind
  operands := operands
  text := text
  weight := nodes
  weight_operands {n a b} h := by
    cases n <;> simp [operands] at h <;> obtain ⟨rfl, rfl⟩ := h <;> simp [nodes]

end Expr

/-! ## Labelled trees -/

/-- What a labelled node answers about itself. -/
structure NodeLabel where
  kind : NodeKind
  isCnf : Bool
  text : String

/-- A binary tree whose nodes answer by their labels alone, in any combination. -/
inductive LabelledTree where
  | leaf (label : NodeLabel)
  | fork (label : NodeLabel) (left right : LabelledTree)

namespace LabelledTree

/-- The answers of the node at the top. -/
def label : LabelledTree → NodeLabel
  | leaf a | fork a .. => a

/-- The two trees below the node at the top, whatever it says of itself. -/
def operands : LabelledTree → Option (LabelledTree × LabelledTree)
  | leaf _ => none
  | fork _ l r => some (l, r)

/-- The number of nodes, a shared one counted at each place. -/
def nodes : LabelledTree → Nat
  | leaf _ => 1
  | fork _ l r => l.nodes + r.nodes + 1

instance : CnfNode LabelledTree where
  kind t := t.label.kind
  operands := operands
  isCnf t := t.label.isCnf
  text t := t.label.text
  weight := nodes
  weight_operands {n a b} h := by
    cases n <;> simp [operands] at h
    obtain ⟨rfl, rfl⟩ := h
    simp [nodes]

end LabelledTree

end ClauseLearning
