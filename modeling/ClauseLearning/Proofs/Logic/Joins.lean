import ClauseLearning.Logic.Expr
import Mathlib.Algebra.Group.Nat.Defs
import Mathlib.Data.List.Forall2
import Mathlib.Data.Nat.Log

/-!
# Balanced joins

Rounds of pairwise joins keep the entries of a list in their order, and each round puts one more join
above an entry at most.

* `Expr.Joined`, `Expr.JoinedWithin`: the leaves of a tree of joins, and how deep they are.
* `Expr.exists_balancedWithin`: the leaves of a balanced join, at logarithmic depth.
* `Expr.Joined.eval_and`, `Expr.Joined.eval_or`: the truth value of a tree of joins.
-/

namespace ClauseLearning

namespace Expr

variable {α : Type} {join : α → α → α} {a b : α} {es xs ys : List α} {d d' k : Nat}

/-- A tree of joins, and its leaves from left to right. -/
inductive Joined (join : α → α → α) : α → List α → Prop
  | leaf (a : α) : Joined join a [a]
  | node {a b : α} {xs ys : List α} (ha : Joined join a xs) (hb : Joined join b ys) :
      Joined join (join a b) (xs ++ ys)

/-- A tree of joins, and its leaves from left to right, each below at most `d` joins. -/
inductive JoinedWithin (join : α → α → α) : Nat → α → List α → Prop
  | leaf (d : Nat) (a : α) : JoinedWithin join d a [a]
  | node {d : Nat} {a b : α} {xs ys : List α} (ha : JoinedWithin join d a xs)
      (hb : JoinedWithin join d b ys) : JoinedWithin join (d + 1) (join a b) (xs ++ ys)

theorem JoinedWithin.joined (h : JoinedWithin join d a xs) : Joined join a xs := by
  induction h with
  | leaf d a => exact .leaf a
  | node _ _ iha ihb => exact .node iha ihb

theorem JoinedWithin.mono (h : JoinedWithin join d a xs) (hd : d ≤ d') :
    JoinedWithin join d' a xs := by
  induction h generalizing d' with
  | leaf d a => exact .leaf d' a
  | @node d a b xs ys _ _ iha ihb =>
    cases d' with
    | zero => omega
    | succ d' => exact .node (iha (by omega)) (ihb (by omega))

/-! ## Rounds -/

theorem flatten_pairUp (xss : List (List α)) :
    (pairUp (· ++ ·) xss).flatten = xss.flatten := by
  fun_induction pairUp (· ++ ·) xss with
  | case1 a b rest ih => simp [ih]
  | case2 xss h => rfl

/-- Joining neighbours joins their leaves, one join further down. -/
theorem forall₂_pairUp {xss : List (List α)} (h : List.Forall₂ (JoinedWithin join d) es xss) :
    List.Forall₂ (JoinedWithin join (d + 1)) (pairUp join es) (pairUp (· ++ ·) xss) := by
  fun_induction pairUp join es generalizing xss with
  | case1 a b rest ih =>
    obtain _ | ⟨ha, _ | ⟨hb, h⟩⟩ := h
    exact .cons (.node ha hb) (ih h)
  | case2 es hes =>
    obtain _ | ⟨ha, _ | ⟨hb, h⟩⟩ := h
    · exact .nil
    · exact .cons (ha.mono (Nat.le_succ d)) .nil
    · exact absurd rfl (hes _ _ _)

/-- Each round halves the list, so `k` rounds are enough for `2 ^ k` entries. -/
private theorem exists_balanced_of_forall₂ {xss : List (List α)}
    (h : List.Forall₂ (JoinedWithin join d) es xss) (hne : es ≠ []) (hk : es.length ≤ 2 ^ k) :
    ∃ e, balanced join es = some e ∧ JoinedWithin join (d + k) e xss.flatten := by
  fun_induction balanced join es generalizing xss d k with
  | case1 => exact absurd rfl hne
  | case2 a =>
    obtain _ | ⟨ha, _ | _⟩ := h
    exact ⟨a, rfl, by simpa using ha.mono (Nat.le_add_right d k)⟩
  | case3 a b rest ih =>
    cases k with
    | zero => simp at hk
    | succ k =>
      have hhalf : (pairUp join (a :: b :: rest)).length ≤ 2 ^ k := by
        rw [length_pairUp]
        rw [Nat.pow_succ] at hk
        omega
      obtain ⟨e, he, hjoined⟩ := ih (forall₂_pairUp h) (by simp [pairUp]) hhalf
      rw [flatten_pairUp] at hjoined
      exact ⟨e, he, hjoined.mono (by omega)⟩

/-- A list that is not empty has a balanced join, with the list as its leaves at logarithmic
depth. -/
theorem exists_balancedWithin (join : α → α → α) (hne : es ≠ []) :
    ∃ e, balanced join es = some e ∧ JoinedWithin join (Nat.clog 2 es.length) e es := by
  have hleaves : List.Forall₂ (JoinedWithin join 0) es (es.map ([·])) := by
    rw [List.forall₂_map_right_iff]
    exact List.forall₂_same.mpr fun a _ => .leaf 0 a
  obtain ⟨e, he, hjoined⟩ :=
    exists_balanced_of_forall₂ hleaves hne (Nat.le_pow_clog Nat.one_lt_two es.length)
  rw [← List.flatMap_def, List.flatMap_singleton', Nat.zero_add] at hjoined
  exact ⟨e, he, hjoined⟩

theorem exists_balanced (join : α → α → α) (hne : es ≠ []) :
    ∃ e, balanced join es = some e ∧ Joined join e es := by
  obtain ⟨e, he, hjoined⟩ := exists_balancedWithin join hne
  exact ⟨e, he, hjoined.joined⟩

/-! ## Truth -/

/-- A tree of conjunctions is true where all its leaves are. -/
theorem Joined.eval_and {e : Expr} {es : List Expr} (h : Joined Expr.and e es) (a : Assignment) :
    e.eval a = es.all fun e => e.eval a := by
  induction h with
  | leaf e => simp
  | node _ _ iha ihb => rw [eval, iha, ihb, List.all_append]

/-- A tree of disjunctions is true where one of its leaves is. -/
theorem Joined.eval_or {e : Expr} {es : List Expr} (h : Joined Expr.or e es) (a : Assignment) :
    e.eval a = es.any fun e => e.eval a := by
  induction h with
  | leaf e => simp
  | node _ _ iha ihb => rw [eval, iha, ihb, List.any_append]

end Expr

end ClauseLearning
