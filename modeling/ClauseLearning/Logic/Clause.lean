import ClauseLearning.Ascending
import ClauseLearning.Logic.Literal

/-!
# Clauses

A clause is a set of literals, kept in ascending order. The order makes membership a binary search
and puts a literal next to its negation.

* `LiteralSet`, `Clause.ofSet`, `Clause.ofList`, `Clause.ofInts`: what a clause is made from.
* `Clause.mem_ofList`: a clause made from a list has the list's literals.
* `Clause.ext_mem`: clauses with the same literals are equal.
* `Clause.contains_iff`: binary search decides membership.
-/

namespace ClauseLearning

/-- A disjunction of literals, in ascending order and each once. -/
structure Clause where
  literals : Array Literal
  ascending : Ascending.Sorted Literal.code literals.toList
deriving DecidableEq

/-- A finite set of literals, listed in ascending order. -/
structure LiteralSet where
  toList : List Literal
  ascending : Ascending.Sorted Literal.code toList

namespace LiteralSet

/-- The set without literals. -/
def empty : LiteralSet := ⟨[], .nil⟩

/-- Adds a literal, unless it is there. -/
def insert (l : Literal) (s : LiteralSet) : LiteralSet where
  toList := Ascending.insert Literal.code l s.toList
  ascending := Ascending.sorted_insert s.ascending

/-- The set of the literals of a list. -/
def ofList (ls : List Literal) : LiteralSet := ls.foldr insert empty

end LiteralSet

namespace Clause

instance : Membership Literal Clause := ⟨fun c l => l ∈ c.literals⟩

theorem mem_def {l : Literal} {c : Clause} : l ∈ c ↔ l ∈ c.literals := Iff.rfl

/-- The clause of the literals of a list. -/
def ofList (ls : List Literal) : Clause where
  literals := (Ascending.ofList Literal.code ls).toArray
  ascending := Ascending.sorted_ofList ls

/-- The clause of the literals of a set. -/
def ofSet (s : LiteralSet) : Clause where
  literals := s.toList.toArray
  ascending := s.ascending

/-- The clause of the literals that the numbers denote. -/
def ofInts (ns : List Int) : Except LiteralError Clause := do
  return ofList (← ns.mapM Literal.ofInt)

/-- The clause of one literal. -/
def ofLiteral (l : Literal) : Clause where
  literals := #[l]
  ascending := List.pairwise_singleton _ _

/-- The number of literals. -/
def size (c : Clause) : Nat := c.literals.size

/-- A clause without literals is false under every assignment. -/
def isEmpty (c : Clause) : Bool := c.literals.isEmpty

/-- Looks a literal up by binary search. -/
def contains (c : Clause) (l : Literal) : Bool :=
  (Ascending.search Literal.code c.literals l.code).isSome

/-- Two neighbours of the list have one variable. -/
def neighboursShareVar : List Literal → Bool
  | a :: b :: rest => a.var == b.var || neighboursShareVar (b :: rest)
  | _ => false

/-- A clause with both literals of a variable is true under every assignment. Only neighbours are
compared: nothing lies between a variable and its negation. -/
def isTautology (c : Clause) : Bool := neighboursShareVar c.literals.toList

/-- The literal of a clause of one literal. -/
def unit? (c : Clause) : Option Literal :=
  match c.literals.toList with
  | [l] => some l
  | _ => none

/-- The variables of the clause, in ascending order. -/
def vars (c : Clause) : List Var := Ascending.ofList Var.id (c.literals.toList.map Literal.var)

/-- Shorter clauses come first; of one size, the literals decide from the left. -/
instance : Ord Clause where
  compare a b := (compare a.size b.size).then (compare a.literals.toList b.literals.toList)

/-- The literals joined by `∨`; the empty clause is `⊥`. -/
def text (c : Clause) : String :=
  if c.isEmpty then "⊥" else " ∨ ".intercalate (c.literals.toList.map Literal.text)

/-- The resolvent of two clauses on a variable: the literals of both over the other variables. -/
def resolve (v : Var) (c d : Clause) : Clause where
  literals := ((d.literals.toList.filter (·.var ≠ v)).foldr (Ascending.insert Literal.code)
    (c.literals.toList.filter (·.var ≠ v))).toArray
  ascending := by
    show Ascending.Sorted _ (List.foldr _ _ _)
    induction d.literals.toList.filter (·.var ≠ v) with
    | nil => exact c.ascending.filter _
    | cons x xs ih => exact Ascending.sorted_insert ih

/-! ## Membership -/

theorem mem_ofList {l : Literal} {ls : List Literal} : l ∈ ofList ls ↔ l ∈ ls := by
  simp [mem_def, ofList, Ascending.mem_ofList (fun _ _ => Literal.code_inj)]

/-- Clauses with the same literals are equal. -/
theorem ext_mem {c d : Clause} (h : ∀ l, l ∈ c ↔ l ∈ d) : c = d := by
  obtain ⟨⟨xs⟩, hx⟩ := c
  obtain ⟨⟨ys⟩, hy⟩ := d
  have : xs = ys := Ascending.eq_of_mem_iff hx hy fun l => by simpa [mem_def] using h l
  subst this
  rfl

theorem contains_iff {c : Clause} {l : Literal} : c.contains l ↔ l ∈ c := by
  rw [contains, Ascending.isSome_search_iff c.ascending]
  exact ⟨fun ⟨x, hx, hk⟩ => Literal.code_inj hk ▸ hx, fun h => ⟨l, h, rfl⟩⟩

theorem mem_resolve {l : Literal} {v : Var} {c d : Clause} :
    l ∈ resolve v c d ↔ (l ∈ c ∨ l ∈ d) ∧ l.var ≠ v := by
  have key (xs ys : List Literal) :
      l ∈ xs.foldr (Ascending.insert Literal.code) ys ↔ l ∈ ys ∨ l ∈ xs := by
    induction xs with
    | nil => simp
    | cons x xs ih =>
      rw [List.foldr_cons, Ascending.mem_insert (fun _ _ => Literal.code_inj), ih, List.mem_cons]
      grind
  simp only [mem_def, resolve, List.mem_toArray, key, List.mem_filter, Array.mem_toList_iff,
    decide_eq_true_eq]
  grind

theorem mem_of_unit? {c : Clause} {l : Literal} (h : c.unit? = some l) : ∀ m, m ∈ c ↔ m = l := by
  intro m
  unfold unit? at h
  split at h
  · next x hx =>
    cases h
    rw [mem_def, ← Array.mem_toList_iff, hx, List.mem_singleton]
  · cases h

theorem mem_vars {v : Var} {c : Clause} : v ∈ c.vars ↔ ∃ l ∈ c, l.var = v := by
  simp [vars, Ascending.mem_ofList (fun _ _ => Var.ext_id), mem_def]

end Clause

end ClauseLearning
