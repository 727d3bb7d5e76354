import ClauseLearning.Proofs.Logic.NormalForm

/-!
# Flattening from left to right

Flattening by stacks is flattening by recursion, for every tree and whatever its nodes answer about
themselves. The first node out of place, in preorder, decides how it fails. A balanced join is
flattened to the clauses of its leaves.

* `literalsBelow`, `clausesBelow`: the recursion from left to right.
* `fault?`: what is wrong with a node by itself, which depends on its place.
* `preorder`: the nodes of a tree with their places, each before its operands.
* `flatten_leftToRight`: what flattening gives, and how it fails.
* `Expr.balanced_joins`: the shape, the truth and the clauses of a balanced join.
-/

namespace ClauseLearning

section Recursion

variable {ν : Type} [CnfNode ν] {n a b : ν}

theorem weight_left_lt (h : CnfNode.operands n = some (a, b)) :
    CnfNode.weight a < CnfNode.weight n := by
  have := CnfNode.weight_operands h
  omega

theorem weight_right_lt (h : CnfNode.operands n = some (a, b)) :
    CnfNode.weight b < CnfNode.weight n := by
  have := CnfNode.weight_operands h
  omega

/-- The literals at and below a node of a disjunction. -/
def literalsBelow (n : ν) : Except NormalFormError (List Literal) :=
  match CnfNode.kind n with
  | .literal l => .ok [l]
  | .or =>
    match _h : CnfNode.operands n with
    | some (a, b) => do return (← literalsBelow a) ++ (← literalsBelow b)
    | none => .error (.ofText (CnfNode.text n))
  | .and | .unsupported => .error (.ofText (CnfNode.text n))
termination_by CnfNode.weight n
decreasing_by
  · exact weight_left_lt (by assumption)
  · exact weight_right_lt (by assumption)

/-- The clauses at and below a node that is not below a disjunction. -/
def clausesBelow (n : ν) : Except NormalFormError (List Clause) :=
  if CnfNode.isCnf n then
    match CnfNode.kind n with
    | .and =>
      match _h : CnfNode.operands n with
      | some (a, b) => do return (← clausesBelow a) ++ (← clausesBelow b)
      | none => .error (.ofText (CnfNode.text n))
    | .or | .literal _ => do return [.ofList (← literalsBelow n)]
    | .unsupported => .error .unsupportedNode
  else .error (.ofText (CnfNode.text n))
termination_by CnfNode.weight n
decreasing_by
  · exact weight_left_lt (by assumption)
  · exact weight_right_lt (by assumption)

theorem literalsOf_singleton (n : ν) : literalsOf [n] = literalsBelow n := by
  fun_induction literalsBelow n with
  | case1 n l h => rw [literalsOf_literal h, literalsOf]; rfl
  | case2 n h a b ho iha ihb =>
    rw [literalsOf_or h ho, ← List.singleton_append, literalsOf_append, iha, ihb]
  | case3 n h ho => exact literalsOf_error (by simp [h]) fun _ => ho
  | case4 n h => exact literalsOf_error (by simp [h]) (by simp [h])
  | case5 n h => exact literalsOf_error (by simp [h]) (by simp [h])

theorem clausesOf_startsClause (hcnf : CnfNode.isCnf n = true) (h : StartsClause n) :
    clausesOf [n] = do return [.ofList (← literalsBelow n)] := by
  rw [clausesOf_clause hcnf h, clausesOf, clauseOf, literalsOf_singleton]
  cases literalsBelow n <;> rfl

/-- The clauses of one node are those of the recursion. -/
theorem flatten_eq_clausesBelow (n : ν) : flatten n = clausesBelow n := by
  unfold flatten
  fun_induction clausesBelow n with
  | case1 n hcnf h a b ho iha ihb =>
    rw [clausesOf_and hcnf h ho, ← List.singleton_append, clausesOf_append, iha, ihb]
  | case2 n hcnf h ho => exact clausesOf_and_error hcnf h ho
  | case3 n hcnf h => exact clausesOf_startsClause hcnf (.inl h)
  | case4 n hcnf l h => exact clausesOf_startsClause hcnf (.inr ⟨l, h⟩)
  | case5 n hcnf h => rw [clausesOf, if_neg (by simp [hcnf]), h]
  | case6 n hcnf => rw [clausesOf, if_pos (by simp [hcnf])]

/-! ## The first fault -/

/-- Where a node stands. -/
inductive Place where
  /-- Below conjunctions only. -/
  | conjunct
  /-- Below a disjunction. -/
  | disjunct

/-- What is wrong with a node by itself, in its place. -/
def fault? (place : Place) (n : ν) : Option NormalFormError :=
  match place with
  | .conjunct =>
    if CnfNode.isCnf n then
      match CnfNode.kind n with
      | .literal _ => none
      | .and | .or =>
        if (CnfNode.operands n).isSome then none else some (.ofText (CnfNode.text n))
      | .unsupported => some .unsupportedNode
    else some (.ofText (CnfNode.text n))
  | .disjunct =>
    match CnfNode.kind n with
    | .literal _ => none
    | .or => if (CnfNode.operands n).isSome then none else some (.ofText (CnfNode.text n))
    | .and | .unsupported => some (.ofText (CnfNode.text n))

/-- The nodes at and below a node, with their places: each before its operands, and all that is below
the left operand before the right one. -/
def preorder (place : Place) (n : ν) : List (Place × ν) :=
  (place, n) ::
    match CnfNode.kind n with
    | .and =>
      match _h : CnfNode.operands n with
      | some (a, b) => preorder place a ++ preorder place b
      | none => []
    | .or =>
      match _h : CnfNode.operands n with
      | some (a, b) => preorder .disjunct a ++ preorder .disjunct b
      | none => []
    | .literal _ | .unsupported => []
termination_by CnfNode.weight n
decreasing_by
  · exact weight_left_lt (by assumption)
  · exact weight_right_lt (by assumption)
  · exact weight_left_lt (by assumption)
  · exact weight_right_lt (by assumption)

variable {place : Place}

theorem preorder_and (h : CnfNode.kind n = .and) (ho : CnfNode.operands n = some (a, b)) :
    preorder place n = (place, n) :: (preorder place a ++ preorder place b) := by
  rw [preorder]
  split <;> rename_i hkind <;> rw [h] at hkind <;> cases hkind
  split <;> rename_i hop <;> rw [ho] at hop <;> cases hop
  rfl

theorem preorder_or (h : CnfNode.kind n = .or) (ho : CnfNode.operands n = some (a, b)) :
    preorder place n = (place, n) :: (preorder .disjunct a ++ preorder .disjunct b) := by
  rw [preorder]
  split <;> rename_i hkind <;> rw [h] at hkind <;> cases hkind
  split <;> rename_i hop <;> rw [ho] at hop <;> cases hop
  rfl

theorem preorder_literal {l : Literal} (h : CnfNode.kind n = .literal l) :
    preorder place n = [(place, n)] := by
  rw [preorder, h]

/-- The fault of the first faulty node. -/
def firstFault? (place : Place) (n : ν) : Option NormalFormError :=
  (preorder place n).findSome? fun v => fault? v.1 v.2

theorem firstFault?_of_fault? {x : NormalFormError} (h : fault? place n = some x) :
    firstFault? place n = some x := by
  rw [firstFault?, preorder, List.findSome?_cons, h]

theorem firstFault?_and (hfault : fault? place n = none) (h : CnfNode.kind n = .and)
    (ho : CnfNode.operands n = some (a, b)) :
    firstFault? place n = (firstFault? place a).or (firstFault? place b) := by
  simp only [firstFault?, preorder_and h ho, List.findSome?_cons, hfault, List.findSome?_append]

theorem firstFault?_or (hfault : fault? place n = none) (h : CnfNode.kind n = .or)
    (ho : CnfNode.operands n = some (a, b)) :
    firstFault? place n = (firstFault? .disjunct a).or (firstFault? .disjunct b) := by
  simp only [firstFault?, preorder_or h ho, List.findSome?_cons, hfault, List.findSome?_append]

theorem firstFault?_literal {l : Literal} (hfault : fault? place n = none)
    (h : CnfNode.kind n = .literal l) : firstFault? place n = none := by
  simp only [firstFault?, preorder_literal h, List.findSome?_cons, hfault, List.findSome?_nil]

/-- The literals below a node are not found if some node there is faulty, and the first one
decides. -/
theorem failure?_literalsBelow (n : ν) : failure? (literalsBelow n) = firstFault? .disjunct n := by
  fun_induction literalsBelow n with
  | case1 n l h => exact (firstFault?_literal (by simp [fault?, h]) h).symm
  | case2 n h a b ho iha ihb =>
    rw [failure?_append, iha, ihb, firstFault?_or (by simp [fault?, h, ho]) h ho]
  | case3 n h ho => exact (firstFault?_of_fault? (by simp [fault?, h, ho])).symm
  | case4 n h => exact (firstFault?_of_fault? (by simp [fault?, h])).symm
  | case5 n h => exact (firstFault?_of_fault? (by simp [fault?, h])).symm

/-- Below a node that starts a clause its place makes no difference. -/
theorem firstFault?_startsClause (hcnf : CnfNode.isCnf n = true) (h : StartsClause n) :
    firstFault? .conjunct n = firstFault? .disjunct n := by
  rcases h with h | ⟨l, h⟩
  · cases ho : CnfNode.operands n with
    | none =>
      rw [firstFault?_of_fault? (x := .ofText (CnfNode.text n)) (by simp [fault?, hcnf, h, ho]),
        firstFault?_of_fault? (x := .ofText (CnfNode.text n)) (by simp [fault?, h, ho])]
    | some operands =>
      rw [firstFault?_or (by simp [fault?, hcnf, h, ho]) h ho,
        firstFault?_or (by simp [fault?, h, ho]) h ho]
  · rw [firstFault?_literal (by simp [fault?, hcnf, h]) h,
      firstFault?_literal (by simp [fault?, h]) h]

theorem failure?_clausesBelow (n : ν) : failure? (clausesBelow n) = firstFault? .conjunct n := by
  fun_induction clausesBelow n with
  | case1 n hcnf h a b ho iha ihb =>
    rw [failure?_append, iha, ihb, firstFault?_and (by simp [fault?, hcnf, h, ho]) h ho]
  | case2 n hcnf h ho => exact (firstFault?_of_fault? (by simp [fault?, hcnf, h, ho])).symm
  | case3 n hcnf h =>
    rw [failure?_map, failure?_literalsBelow, firstFault?_startsClause hcnf (.inl h)]
  | case4 n hcnf l h =>
    rw [failure?_map, failure?_literalsBelow, firstFault?_startsClause hcnf (.inr ⟨l, h⟩)]
  | case5 n hcnf h => exact (firstFault?_of_fault? (by simp [fault?, hcnf, h])).symm
  | case6 n hcnf => exact (firstFault?_of_fault? (by simp [fault?, hcnf])).symm

end Recursion

/-- A text is reported up to its eightieth character, and an ellipsis stands for the rest. -/
theorem NormalFormError.exists_ofText (text : String) : ∃ shown, ofText text = .notCnf shown ∧
    shown.toList = text.toList.take 80 ++ if 80 < text.toList.length then ['…'] else [] := by
  simp only [ofText, maxNodeWidth]
  by_cases h : 80 < text.toList.length
  · simp [h]
  · simp [h, List.take_of_length_le (Nat.le_of_not_lt h)]

/-- Flattening with stacks gives what the recursion from left to right gives. It fails exactly if
some node is faulty in its place; of several ones the first in preorder decides. A node that is
reported is shown by the first eighty characters of its text, with an ellipsis if there are more. -/
theorem flatten_leftToRight {ν : Type} [CnfNode ν] (root : ν) :
    flatten root = clausesBelow root ∧
    (∀ x, flatten root = .error x ↔
      (preorder .conjunct root).findSome? (fun v => fault? v.1 v.2) = some x) ∧
    ∀ text, ∃ shown, NormalFormError.ofText text = .notCnf shown ∧
      shown.toList = text.toList.take 80 ++ if 80 < text.toList.length then ['…'] else [] := by
  refine ⟨flatten_eq_clausesBelow root, fun x => ?_, NormalFormError.exists_ofText⟩
  rw [← failure?_eq_some_iff, flatten_eq_clausesBelow, failure?_clausesBelow, firstFault?]

/-- A node below a disjunction is reported whatever it says about itself, and before the node to its
right. -/
example : flatten (LabelledTree.fork ⟨.or, true, "or"⟩ (.leaf ⟨.and, true, "and"⟩)
    (.leaf ⟨.unsupported, true, "unsupported"⟩)) = .error (.notCnf "and") := by decide +kernel

/-! ## Balanced joins -/

/-- A stack has the clauses of its nodes, one node after the other. -/
theorem clausesOf_eq_mapM {ν : Type} [CnfNode ν] (stack : List ν) :
    clausesOf stack = do return (← stack.mapM flatten).flatten := by
  induction stack with
  | nil => rw [clausesOf]; rfl
  | cons n stack ih =>
    rw [← List.singleton_append, clausesOf_append, ih, List.singleton_append, List.mapM_cons]
    show flatten n >>= _ = _
    cases flatten n <;> cases stack.mapM flatten <;> rfl

/-- A list of expressions that is not empty has a balanced conjunction and a balanced disjunction,
with the list as leaves at logarithmic depth. The one is true where all expressions are, the other
where one of them is, and the clauses of the conjunction are those of the expressions, one after the
other. -/
theorem Expr.balanced_joins {es : List Expr} (hne : es ≠ []) :
    (∃ e, Expr.conjunction es = some e ∧ Expr.JoinedWithin .and (Nat.clog 2 es.length) e es ∧
      (∀ a, e.eval a = es.all fun d => d.eval a) ∧
      flatten e = do return (← es.mapM flatten).flatten) ∧
    (∃ e, Expr.disjunction es = some e ∧ Expr.JoinedWithin .or (Nat.clog 2 es.length) e es ∧
      ∀ a, e.eval a = es.any fun d => d.eval a) := by
  constructor
  · obtain ⟨e, he, hjoined⟩ := exists_balancedWithin Expr.and hne
    refine ⟨e, he, hjoined, hjoined.joined.eval_and, ?_⟩
    rw [flatten, hjoined.joined.clausesOf, clausesOf_eq_mapM]
  · obtain ⟨e, he, hjoined⟩ := exists_balancedWithin Expr.or hne
    exact ⟨e, he, hjoined, hjoined.joined.eval_or⟩

/-- A variable between two expressions that are out of place. -/
def Expr.misplaced : List Expr := [.not .top, .var 1, .bottom]

/-- Three expressions are joined in two rounds, and the first one out of place is reported. -/
theorem Expr.misplaced_joined : Expr.misplaced ≠ [] ∧ ∃ e,
    Expr.conjunction Expr.misplaced = some e ∧ Expr.JoinedWithin .and 2 e Expr.misplaced ∧
    (∀ a, e.eval a = false) ∧ flatten e = .error (.notCnf "¬⊤") := by
  have hne : Expr.misplaced ≠ [] := by decide
  obtain ⟨⟨e, he, hjoined, heval, hflatten⟩, -⟩ := Expr.balanced_joins hne
  refine ⟨hne, e, he, ?_, fun a => ?_, ?_⟩
  · have hdepth : Nat.clog 2 Expr.misplaced.length = 2 := by decide
    rwa [hdepth] at hjoined
  · rw [heval]
    simp [Expr.misplaced, Expr.eval]
  · rw [hflatten]
    decide +kernel

end ClauseLearning
