import ClauseLearning.Logic.NormalForm
import ClauseLearning.Proofs.Logic.Joins
import ClauseLearning.Proofs.Outcomes

/-!
# Normal forms

Flattening a stack of nodes is flattening one node after the other, and the clauses say what the
nodes say. A join of expressions is flattened to the clauses of its leaves.

* `literalsOf_append`, `clausesOf_append`: stacks are flattened in parts.
* `Joined.flatten_eq`: the clauses of a conjunction of disjunctions of literals.
* `Expr.eval_iff_satisfies`: an expression is true where its clauses are.
-/

namespace ClauseLearning

/-! ## Stacks of nodes -/

section Stacks

variable {ν : Type} [CnfNode ν]

variable {n a b : ν} {l : Literal} {rest : List ν}

theorem literalsOf_literal (h : CnfNode.kind n = .literal l) :
    literalsOf (n :: rest) = do return l :: (← literalsOf rest) := by
  rw [literalsOf, h]

theorem literalsOf_or (h : CnfNode.kind n = .or) (ho : CnfNode.operands n = some (a, b)) :
    literalsOf (n :: rest) = literalsOf (a :: b :: rest) := by
  rw [literalsOf]
  split <;> rename_i hkind <;> rw [h] at hkind <;> cases hkind
  split <;> rename_i hop <;> rw [ho] at hop <;> cases hop
  rfl

/-- Any other node is an error. -/
theorem literalsOf_error (h : ∀ l, CnfNode.kind n ≠ .literal l)
    (ho : CnfNode.kind n = .or → CnfNode.operands n = none) :
    literalsOf (n :: rest) = .error (.ofText (CnfNode.text n)) := by
  rw [literalsOf]
  split
  · next l hl => exact absurd hl (h l)
  · next hor =>
    split
    · next hop => rw [ho hor] at hop; cases hop
    · rfl
  · rfl
  · rfl

/-- The literals of a stack are those of its parts, or the first error. -/
theorem literalsOf_append (xs ys : List ν) : literalsOf (xs ++ ys) = do
    let ls ← literalsOf xs
    let ms ← literalsOf ys
    return ls ++ ms := by
  fun_induction literalsOf xs with
  | case1 => rw [List.nil_append]; cases literalsOf ys <;> rfl
  | case2 n rest l h ih =>
    rw [List.cons_append, literalsOf_literal h, ih]
    cases literalsOf rest <;> cases literalsOf ys <;> rfl
  | case3 n rest h a b ho ih => rw [List.cons_append, literalsOf_or h ho, ← ih]; rfl
  | case4 n rest h ho => rw [List.cons_append, literalsOf_error (by simp [h]) fun _ => ho]; rfl
  | case5 n rest h => rw [List.cons_append, literalsOf_error (by simp [h]) (by simp [h])]; rfl
  | case6 n rest h => rw [List.cons_append, literalsOf_error (by simp [h]) (by simp [h])]; rfl

/-- A node that starts a clause. -/
def StartsClause (n : ν) : Prop := CnfNode.kind n = .or ∨ ∃ l, CnfNode.kind n = .literal l

theorem clausesOf_and (hcnf : CnfNode.isCnf n = true) (h : CnfNode.kind n = .and)
    (ho : CnfNode.operands n = some (a, b)) :
    clausesOf (n :: rest) = clausesOf (a :: b :: rest) := by
  rw [clausesOf, if_neg (by simp [hcnf])]
  split <;> rename_i hkind <;> rw [h] at hkind <;> cases hkind
  split <;> rename_i hop <;> rw [ho] at hop <;> cases hop
  rfl

theorem clausesOf_clause (hcnf : CnfNode.isCnf n = true) (h : StartsClause n) :
    clausesOf (n :: rest) = do return (← clauseOf n) :: (← clausesOf rest) := by
  rw [clausesOf, if_neg (by simp [hcnf])]
  rcases h with h | ⟨l, h⟩ <;> rw [h]

theorem clausesOf_and_error (hcnf : CnfNode.isCnf n = true) (h : CnfNode.kind n = .and)
    (ho : CnfNode.operands n = none) :
    clausesOf (n :: rest) = .error (.ofText (CnfNode.text n)) := by
  rw [clausesOf, if_neg (by simp [hcnf])]
  split <;> rename_i hkind <;> rw [h] at hkind <;> cases hkind
  split
  · next hop => rw [ho] at hop; cases hop
  · rfl

/-- The clauses of a stack are those of its parts, or the first error. -/
theorem clausesOf_append (xs ys : List ν) : clausesOf (xs ++ ys) = do
    let cs ← clausesOf xs
    let ds ← clausesOf ys
    return cs ++ ds := by
  fun_induction clausesOf xs with
  | case1 => rw [List.nil_append]; cases clausesOf ys <;> rfl
  | case2 n rest h => rw [List.cons_append, clausesOf, if_pos h]; rfl
  | case3 n rest h hkind a b ho ih =>
    rw [List.cons_append, clausesOf_and (by simpa using h) hkind ho, ← ih]
    rfl
  | case4 n rest h hkind ho =>
    rw [List.cons_append, clausesOf_and_error (by simpa using h) hkind ho]
    rfl
  | case5 n rest h hkind ih =>
    rw [List.cons_append, clausesOf_clause (by simpa using h) (.inl hkind), ih]
    cases clauseOf n <;> cases clausesOf rest <;> cases clausesOf ys <;> rfl
  | case6 n rest h l hkind ih =>
    rw [List.cons_append, clausesOf_clause (by simpa using h) (.inr ⟨l, hkind⟩), ih]
    cases clauseOf n <;> cases clausesOf rest <;> cases clausesOf ys <;> rfl
  | case7 n rest h hkind =>
    rw [List.cons_append, clausesOf, if_neg h, hkind]
    rfl

end Stacks

/-! ## Expressions as trees -/

namespace Expr

variable {e a b : Expr} {es rest : List Expr} {l : Literal} {ls : List Literal}

/-- The literals among the expressions are the variables and negated variables, but for number
zero. -/
theorem kind_eq_literal_iff : CnfNode.kind e = .literal l ↔ e = ofLiteral l := by
  obtain ⟨⟨n, hn⟩, p⟩ := l
  have hzero : 0 ≠ n := Nat.ne_of_lt hn
  show nodeKind e = _ ↔ _
  cases e with
  | var m =>
    rcases Nat.eq_zero_or_pos m with rfl | h <;> cases p <;>
      simp [nodeKind, Var.ofNat?, ofLiteral, *]
  | not e =>
    cases e with
    | var m =>
      rcases Nat.eq_zero_or_pos m with rfl | h <;> cases p <;>
        simp [nodeKind, Var.ofNat?, ofLiteral, *]
    | _ => cases p <;> simp [nodeKind, ofLiteral]
  | _ => cases p <;> simp [nodeKind, ofLiteral]

theorem kind_eq_and_iff : CnfNode.kind e = .and ↔ ∃ a b, e = .and a b := by
  show nodeKind e = _ ↔ _
  fun_cases nodeKind e <;> simp_all

theorem kind_eq_or_iff : CnfNode.kind e = .or ↔ ∃ a b, e = .or a b := by
  show nodeKind e = _ ↔ _
  fun_cases nodeKind e <;> simp_all

theorem kind_ofLiteral (l : Literal) : CnfNode.kind (ofLiteral l) = .literal l :=
  kind_eq_literal_iff.mpr rfl

theorem eval_ofLiteral (a : Assignment) (l : Literal) : (ofLiteral l).eval a = true ↔ l.Holds a := by
  obtain ⟨v, p⟩ := l
  cases p <;> simp [ofLiteral, eval, Literal.Holds]

/-- A disjunction has the literals of its parts. -/
theorem Joined.literalsOf (h : Joined Expr.or e es) : literalsOf [e] = ClauseLearning.literalsOf es := by
  induction h with
  | leaf e => rfl
  | @node a b xs ys ha hb iha ihb =>
    rw [literalsOf_or rfl rfl, literalsOf_append xs ys, ← iha, ← ihb, ← literalsOf_append]
    rfl

theorem literalsOf_map_ofLiteral (ls : List Literal) :
    literalsOf (ls.map ofLiteral) = .ok ls := by
  induction ls with
  | nil => rw [List.map_nil, literalsOf]
  | cons l ls ih => rw [List.map_cons, literalsOf_literal (kind_ofLiteral l), ih]; rfl

theorem isCnf_of_startsClause (h : StartsClause e) : CnfNode.isCnf e = true := by
  show (CnfNode.kind e != .unsupported) = true
  rcases h with h | ⟨l, h⟩ <;> simp [h]

/-- A disjunction of literals is one clause. -/
theorem Joined.clausesOf_clause (h : Joined Expr.or e (ls.map ofLiteral)) :
    clausesOf [e] = .ok [.ofList ls] := by
  have hstarts : StartsClause e := by
    generalize hes : ls.map ofLiteral = es at h
    cases h with
    | leaf e =>
      obtain ⟨l, -, rfl⟩ := List.mem_map.mp (hes ▸ List.mem_singleton_self e)
      exact .inr ⟨l, kind_ofLiteral l⟩
    | node => exact .inl rfl
  rw [ClauseLearning.clausesOf_clause (isCnf_of_startsClause hstarts) hstarts, clauseOf, h.literalsOf,
    literalsOf_map_ofLiteral, clausesOf]
  rfl

/-- A conjunction has the clauses of its parts. -/
theorem Joined.clausesOf (h : Joined Expr.and e es) : clausesOf [e] = ClauseLearning.clausesOf es := by
  induction h with
  | leaf e => rfl
  | @node a b xs ys ha hb iha ihb =>
    rw [clausesOf_and rfl rfl rfl, clausesOf_append xs ys, ← iha, ← ihb, ← clausesOf_append]
    rfl

/-- A conjunction of disjunctions of literals has these disjunctions as its clauses. -/
theorem Joined.flatten_eq {lss : List (List Literal)} (h : Joined Expr.and e es)
    (hes : List.Forall₂ (fun d ls => Joined Expr.or d (ls.map ofLiteral)) es lss) :
    flatten e = .ok (lss.map Clause.ofList) := by
  rw [flatten, h.clausesOf]
  clear h
  induction hes with
  | nil => rw [ClauseLearning.clausesOf]; rfl
  | @cons d ls es lss hd _ ih =>
    rw [← List.singleton_append, clausesOf_append, hd.clausesOf_clause, ih]
    rfl

/-! ## Truth -/

/-- Some expression of the stack is true exactly where one of its literals is. -/
theorem eval_of_literalsOf (a : Assignment) (h : ClauseLearning.literalsOf es = .ok ls) :
    (∃ e ∈ es, e.eval a = true) ↔ ∃ l ∈ ls, l.Holds a := by
  fun_induction ClauseLearning.literalsOf es generalizing ls with
  | case1 =>
    cases h
    simp
  | case2 e rest l hkind ih =>
    obtain ⟨ms, hms, h⟩ := bind_eq_ok_iff.mp h
    cases h
    obtain rfl := kind_eq_literal_iff.mp hkind
    simp only [List.mem_cons, exists_eq_or_imp, eval_ofLiteral, ih hms]
  | case3 e rest hkind x y ho ih =>
    obtain ⟨x, y, rfl⟩ := kind_eq_or_iff.mp hkind
    cases ho
    rw [← ih h]
    simp [eval, or_assoc]
  | case4 => cases h
  | case5 => cases h
  | case6 => cases h

theorem eval_of_clauseOf (a : Assignment) {c : Clause} (h : clauseOf e = .ok c) :
    e.eval a = true ↔ c.Holds a := by
  obtain ⟨ls, hls, h⟩ := bind_eq_ok_iff.mp h
  cases h
  have := eval_of_literalsOf a hls
  simpa [Clause.Holds, Clause.mem_ofList] using this

/-- The expressions of the stack are true exactly where their clauses are. -/
theorem eval_of_clausesOf (a : Assignment) {cs : List Clause}
    (h : ClauseLearning.clausesOf es = .ok cs) :
    (∀ e ∈ es, e.eval a = true) ↔ Satisfies a cs := by
  fun_induction ClauseLearning.clausesOf es generalizing cs with
  | case1 =>
    cases h
    simp [Satisfies]
  | case2 => cases h
  | case3 e rest hcnf hkind x y ho ih =>
    obtain ⟨x, y, rfl⟩ := kind_eq_and_iff.mp hkind
    cases ho
    refine Iff.trans ?_ (ih h)
    simp [eval, and_assoc]
  | case4 => cases h
  | case5 e rest hcnf hkind ih =>
    obtain ⟨c, hc, h⟩ := bind_eq_ok_iff.mp h
    obtain ⟨ds, hds, h⟩ := bind_eq_ok_iff.mp h
    cases h
    refine Iff.trans ?_ (List.forall_mem_cons (p := fun c => Clause.Holds a c)).symm
    rw [List.forall_mem_cons, eval_of_clauseOf a hc]
    exact and_congr_right fun _ => ih hds
  | case6 e rest hcnf l hkind ih =>
    obtain ⟨c, hc, h⟩ := bind_eq_ok_iff.mp h
    obtain ⟨ds, hds, h⟩ := bind_eq_ok_iff.mp h
    cases h
    refine Iff.trans ?_ (List.forall_mem_cons (p := fun c => Clause.Holds a c)).symm
    rw [List.forall_mem_cons, eval_of_clauseOf a hc]
    exact and_congr_right fun _ => ih hds
  | case7 => cases h

/-- An expression is true exactly where all its clauses are. -/
theorem eval_iff_satisfies (a : Assignment) {cs : List Clause} (h : flatten e = .ok cs) :
    e.eval a = true ↔ Satisfies a cs := by
  simpa using eval_of_clausesOf a h

end Expr

end ClauseLearning
