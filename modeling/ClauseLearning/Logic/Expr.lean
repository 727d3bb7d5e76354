import ClauseLearning.Logic.Semantics

/-!
# Propositional expressions

Expressions of any shape, with their truth value and their text. Long conjunctions and disjunctions
are built as balanced trees.

* `Expr.length_pairUp`: a round of pairwise joins halves the list.
-/

namespace ClauseLearning

/-- A propositional expression. Variable number zero is allowed here; it is no variable of a
clause. -/
inductive Expr where
  | and (left right : Expr)
  | or (left right : Expr)
  | not (operand : Expr)
  | var (id : Nat)
  | top
  | bottom
deriving DecidableEq

namespace Expr

/-- A variable or its negation. -/
def ofLiteral (l : Literal) : Expr := if l.positive then .var l.var.id else .not (.var l.var.id)

/-- The truth value under an assignment. -/
def eval (a : Assignment) : Expr → Bool
  | and l r => l.eval a && r.eval a
  | or l r => l.eval a || r.eval a
  | not e => !e.eval a
  | var id => a id
  | top => true
  | bottom => false

/-! ## Text -/

/-- A conjunction. -/
def isAnd : Expr → Bool
  | and .. => true
  | _ => false

/-- A disjunction. -/
def isOr : Expr → Bool
  | or .. => true
  | _ => false

/-- The text, in parentheses where they are needed. -/
def enclose (needed : Bool) (s : String) : String := if needed then "(" ++ s ++ ")" else s

/-- Parentheses stand only around an `or` below an `and`, an `and` below an `or`, and either below a
`not`. -/
def text : Expr → String
  | and l r => enclose l.isOr l.text ++ " ∧ " ++ enclose r.isOr r.text
  | or l r => enclose l.isAnd l.text ++ " ∨ " ++ enclose r.isAnd r.text
  | not e => "¬" ++ enclose (e.isAnd || e.isOr) e.text
  | var id => "x" ++ toString id
  | top => "⊤"
  | bottom => "⊥"

/-! ## Balanced trees -/

/-- Joins neighbours in pairs; an odd last entry stays. -/
def pairUp {α : Type} (join : α → α → α) : List α → List α
  | a :: b :: rest => join a b :: pairUp join rest
  | rest => rest

theorem length_pairUp {α : Type} (join : α → α → α) (xs : List α) :
    (pairUp join xs).length = (xs.length + 1) / 2 := by
  fun_induction pairUp join xs with
  | case1 a b rest ih => simp [ih]; omega
  | case2 xs h =>
    match xs, h with
    | [], _ => simp
    | [_], _ => simp
    | a :: b :: rest, h => exact absurd rfl (h a b rest)

/-- Joins a list in rounds of pairs, so that the tree has logarithmic depth. -/
def balanced {α : Type} (join : α → α → α) : List α → Option α
  | [] => none
  | [a] => some a
  | a :: b :: rest => balanced join (pairUp join (a :: b :: rest))
termination_by xs => xs.length
decreasing_by simp [length_pairUp]; omega

/-- The balanced conjunction of a list, if the list is not empty. -/
def conjunction (es : List Expr) : Option Expr := balanced .and es

/-- The balanced disjunction of a list, if the list is not empty. -/
def disjunction (es : List Expr) : Option Expr := balanced .or es

end Expr

end ClauseLearning
