import ClauseLearning.Proofs.Engine.Correctness
import ClauseLearning.Proofs.Logic.NormalForm
import ClauseLearning.Solver

/-!
# The grammar of conjunctive normal form

An expression is in conjunctive normal form if it is an and-tree of or-trees of literals. These are
the expressions that flattening accepts, and their clauses are read off the tree: one for each
maximal subexpression that is no conjunction, with the literals at the leaves of its or-tree.

* `Expr.IsCnf`, `Expr.conjuncts`, `Expr.ReadsAs`: the grammar, and the clauses of a tree.
* `Expr.literalsOf_eq_ok_iff`, `Expr.clausesOf_eq_ok_iff`: stacks of nodes are flattened exactly if
  each node is in the grammar.
* `checkSat_decides`: exactly the expressions of the grammar are decided.
-/

namespace ClauseLearning

namespace Expr

variable {e a b : Expr} {es rest : List Expr} {l : Literal} {ls : List Literal} {c : Clause}
  {cs : List Clause}

/-! ## The grammar -/

/-- A variable with a number other than zero, or the negation of one. -/
inductive IsLiteral : Expr → Prop
  | var {id : Nat} (h : id ≠ 0) : IsLiteral (var id)
  | not {id : Nat} (h : id ≠ 0) : IsLiteral (not (var id))

/-- An or-tree of literals. -/
inductive IsDisjunction : Expr → Prop
  | literal {e : Expr} (h : IsLiteral e) : IsDisjunction e
  | or {a b : Expr} (ha : IsDisjunction a) (hb : IsDisjunction b) : IsDisjunction (or a b)

/-- An and-tree of disjunctions of literals. -/
inductive IsCnf : Expr → Prop
  | disjunction {e : Expr} (h : IsDisjunction e) : IsCnf e
  | and {a b : Expr} (ha : IsCnf a) (hb : IsCnf b) : IsCnf (and a b)

/-- The maximal subexpressions that are no conjunctions, from left to right. -/
def conjuncts : Expr → List Expr
  | and l r => l.conjuncts ++ r.conjuncts
  | e => [e]

/-- The maximal subexpressions that are no disjunctions, from left to right. -/
def disjuncts : Expr → List Expr
  | or l r => l.disjuncts ++ r.disjuncts
  | e => [e]

/-- The clause has the literals at the leaves of the or-tree, and no others. -/
def ReadsAs (d : Expr) (c : Clause) : Prop := ∀ l, l ∈ c ↔ ofLiteral l ∈ d.disjuncts

theorem isLiteral_iff : e.IsLiteral ↔ ∃ l, e = ofLiteral l := by
  constructor
  · rintro (@⟨id, h⟩ | @⟨id, h⟩)
    · exact ⟨⟨⟨id, Nat.pos_of_ne_zero h⟩, true⟩, rfl⟩
    · exact ⟨⟨⟨id, Nat.pos_of_ne_zero h⟩, false⟩, rfl⟩
  · rintro ⟨⟨⟨id, h⟩, p⟩, rfl⟩
    cases p
    · exact .not (Nat.ne_of_gt h)
    · exact .var (Nat.ne_of_gt h)

theorem ofLiteral_inj {m : Literal} : ofLiteral l = ofLiteral m ↔ l = m := by
  constructor
  · intro h
    have := kind_ofLiteral l
    rw [h, kind_ofLiteral] at this
    exact (NodeKind.literal.inj this).symm
  · exact congrArg ofLiteral

theorem isDisjunction_ofLiteral (l : Literal) : (ofLiteral l).IsDisjunction :=
  .literal (isLiteral_iff.mpr ⟨l, rfl⟩)

theorem disjuncts_ofLiteral (l : Literal) : (ofLiteral l).disjuncts = [ofLiteral l] := by
  obtain ⟨v, p⟩ := l
  cases p <;> rfl

theorem isDisjunction_or_iff : (or a b).IsDisjunction ↔ a.IsDisjunction ∧ b.IsDisjunction := by
  constructor
  · rintro (@⟨_, h⟩ | ⟨ha, hb⟩)
    · cases h
    · exact ⟨ha, hb⟩
  · exact fun ⟨ha, hb⟩ => .or ha hb

theorem isCnf_and_iff : (and a b).IsCnf ↔ a.IsCnf ∧ b.IsCnf := by
  constructor
  · rintro (@⟨_, ⟨h⟩⟩ | ⟨ha, hb⟩)
    · cases h
    · exact ⟨ha, hb⟩
  · exact fun ⟨ha, hb⟩ => .and ha hb

/-! ## Or-trees -/

/-- A node that is no literal and no disjunction is in no or-tree of literals. -/
theorem not_isDisjunction (h : ∀ l, CnfNode.kind e ≠ .literal l) (hor : CnfNode.kind e ≠ .or) :
    ¬e.IsDisjunction := by
  rintro (he | ⟨-, -⟩)
  · obtain ⟨l, rfl⟩ := isLiteral_iff.mp he
    exact h l (kind_ofLiteral l)
  · exact hor rfl

/-- A stack has literals exactly if all its nodes are or-trees of literals; they are the leaves of
these trees, from left to right. -/
theorem literalsOf_eq_ok_iff : ClauseLearning.literalsOf es = .ok ls ↔
    (∀ e ∈ es, e.IsDisjunction) ∧ es.flatMap disjuncts = ls.map ofLiteral := by
  fun_induction ClauseLearning.literalsOf es generalizing ls with
  | case1 => simp [eq_comm]
  | case2 e rest l hkind ih =>
    obtain rfl := kind_eq_literal_iff.mp hkind
    simp only [bind_eq_ok_iff, ih, List.forall_mem_cons, isDisjunction_ofLiteral, true_and,
      List.flatMap_cons, disjuncts_ofLiteral, List.singleton_append]
    constructor
    · rintro ⟨ms, ⟨hrest, hms⟩, h⟩
      cases h
      exact ⟨hrest, by rw [hms, List.map_cons]⟩
    · rintro ⟨hrest, h⟩
      obtain ⟨m, ms, rfl, hm, hms⟩ := List.map_eq_cons_iff.mp h.symm
      exact ⟨ms, ⟨hrest, hms.symm⟩, by rw [ofLiteral_inj.mp hm]; rfl⟩
  | case3 e rest hkind x y ho ih =>
    obtain ⟨x, y, rfl⟩ := kind_eq_or_iff.mp hkind
    cases ho
    rw [ih]
    simp [isDisjunction_or_iff, disjuncts, and_assoc]
  | case4 e rest hkind ho =>
    obtain ⟨x, y, rfl⟩ := kind_eq_or_iff.mp hkind
    cases ho
  | case5 e rest hkind => simp [not_isDisjunction, hkind]
  | case6 e rest hkind => simp [not_isDisjunction, hkind]

/-- The leaves of an or-tree of literals are literals. -/
theorem IsDisjunction.exists_literals (h : e.IsDisjunction) :
    ∃ ls : List Literal, e.disjuncts = ls.map ofLiteral := by
  induction h with
  | literal h =>
    obtain ⟨l, rfl⟩ := isLiteral_iff.mp h
    exact ⟨[l], disjuncts_ofLiteral l⟩
  | or ha hb iha ihb =>
    obtain ⟨ls, hls⟩ := iha
    obtain ⟨ms, hms⟩ := ihb
    exact ⟨ls ++ ms, by rw [disjuncts, hls, hms, List.map_append]⟩

theorem readsAs_ofList (h : e.disjuncts = ls.map ofLiteral) : e.ReadsAs (.ofList ls) := by
  intro l
  simp [h, Clause.mem_ofList, ofLiteral_inj]

/-- The one clause of an or-tree of literals. -/
theorem clauseOf_eq_ok_iff : clauseOf e = .ok c ↔ e.IsDisjunction ∧ e.ReadsAs c := by
  simp only [clauseOf, bind_eq_ok_iff, literalsOf_eq_ok_iff, List.forall_mem_singleton,
    List.flatMap_singleton]
  constructor
  · rintro ⟨ls, ⟨he, hls⟩, h⟩
    cases h
    exact ⟨he, readsAs_ofList hls⟩
  · rintro ⟨he, hc⟩
    obtain ⟨ls, hls⟩ := he.exists_literals
    refine ⟨ls, ⟨he, hls⟩, congrArg Except.ok (Clause.ext_mem fun l => ?_)⟩
    rw [readsAs_ofList hls l, hc l]

/-! ## And-trees -/

theorem conjuncts_of_kind (h : CnfNode.kind e ≠ .and) : e.conjuncts = [e] := by
  cases e with
  | and a b => exact absurd rfl h
  | _ => rfl

theorem isCnf_iff_of_kind (h : CnfNode.kind e ≠ .and) : e.IsCnf ↔ e.IsDisjunction := by
  constructor
  · rintro (he | ⟨-, -⟩)
    · exact he
    · exact absurd rfl h
  · exact .disjunction

theorem isCnf_eq_false_iff : CnfNode.isCnf e = false ↔ CnfNode.kind e = .unsupported :=
  bne_eq_false_iff_eq

theorem not_isCnf (h : CnfNode.kind e = .unsupported) : ¬e.IsCnf := by
  rw [isCnf_iff_of_kind (by simp [h])]
  exact not_isDisjunction (by simp [h]) (by simp [h])

/-- A node that is no conjunction has one clause, before those of the other nodes. -/
theorem clausesOf_cons_eq_ok_iff (h : CnfNode.kind e ≠ .and)
    (hrest : ∀ {ds}, ClauseLearning.clausesOf rest = .ok ds ↔
      (∀ e ∈ rest, e.IsCnf) ∧ List.Forall₂ ReadsAs (rest.flatMap conjuncts) ds) :
    (do return (← clauseOf e) :: (← ClauseLearning.clausesOf rest)) = Except.ok cs ↔
      (∀ d ∈ e :: rest, d.IsCnf) ∧ List.Forall₂ ReadsAs ((e :: rest).flatMap conjuncts) cs := by
  simp only [bind_eq_ok_iff, clauseOf_eq_ok_iff, hrest, List.forall_mem_cons, isCnf_iff_of_kind h,
    List.flatMap_cons, conjuncts_of_kind h, List.singleton_append]
  constructor
  · rintro ⟨c, ⟨he, hc⟩, ds, ⟨hcnf, hds⟩, hcs⟩
    cases hcs
    exact ⟨⟨he, hcnf⟩, .cons hc hds⟩
  · rintro ⟨⟨he, hcnf⟩, hcs⟩
    obtain ⟨c, ds, hc, hds, rfl⟩ := List.forall₂_cons_left_iff.mp hcs
    exact ⟨c, ⟨he, hc⟩, ds, ⟨hcnf, hds⟩, rfl⟩

/-- A stack has clauses exactly if all its nodes are in conjunctive normal form; they are those of
the maximal subexpressions that are no conjunctions, from left to right. -/
theorem clausesOf_eq_ok_iff : ClauseLearning.clausesOf es = .ok cs ↔
    (∀ e ∈ es, e.IsCnf) ∧ List.Forall₂ ReadsAs (es.flatMap conjuncts) cs := by
  fun_induction ClauseLearning.clausesOf es generalizing cs with
  | case1 => simp [eq_comm]
  | case2 e rest hcnf => simp [not_isCnf (isCnf_eq_false_iff.mp (by simpa using hcnf))]
  | case3 e rest hcnf hkind x y ho ih =>
    obtain ⟨x, y, rfl⟩ := kind_eq_and_iff.mp hkind
    cases ho
    rw [ih]
    simp [isCnf_and_iff, conjuncts, and_assoc]
  | case4 e rest hcnf hkind ho =>
    obtain ⟨x, y, rfl⟩ := kind_eq_and_iff.mp hkind
    cases ho
  | case5 e rest hcnf hkind ih => exact clausesOf_cons_eq_ok_iff (by simp [hkind]) ih
  | case6 e rest hcnf l hkind ih => exact clausesOf_cons_eq_ok_iff (by simp [hkind]) ih
  | case7 e rest hcnf hkind => simp [not_isCnf hkind]

theorem flatten_eq_ok_iff :
    flatten e = .ok cs ↔ e.IsCnf ∧ List.Forall₂ ReadsAs e.conjuncts cs := by
  simp [flatten, clausesOf_eq_ok_iff]

theorem IsCnf.exists_clauses (h : e.IsCnf) : ∃ cs, List.Forall₂ ReadsAs e.conjuncts cs := by
  induction h with
  | @disjunction e he =>
    obtain ⟨ls, hls⟩ := he.exists_literals
    have hkind : CnfNode.kind e ≠ .and := fun hand =>
      not_isDisjunction (by simp [hand]) (by simp [hand]) he
    rw [conjuncts_of_kind hkind]
    exact ⟨[.ofList ls], .cons (readsAs_ofList hls) .nil⟩
  | and ha hb iha ihb =>
    obtain ⟨cs, hcs⟩ := iha
    obtain ⟨ds, hds⟩ := ihb
    exact ⟨cs ++ ds, List.rel_append hcs hds⟩

theorem IsCnf.exists_flatten (h : e.IsCnf) : ∃ cs, flatten e = .ok cs := by
  obtain ⟨cs, hcs⟩ := h.exists_clauses
  exact ⟨cs, flatten_eq_ok_iff.mpr ⟨h, hcs⟩⟩

/-! ## Errors -/

/-- A stack without literals shows a node that is out of place. -/
theorem exists_notCnf_of_literalsOf {x : NormalFormError}
    (h : ClauseLearning.literalsOf es = .error x) : ∃ s, x = .notCnf s := by
  fun_induction ClauseLearning.literalsOf es with
  | case1 => cases h
  | case2 e rest l hkind ih =>
    rcases bind_eq_error_iff.mp h with h | ⟨ls, -, h⟩
    · exact ih h
    · cases h
  | case3 e rest hkind x y ho ih => exact ih h
  | case4 | case5 | case6 =>
    cases h
    exact ⟨_, rfl⟩

theorem exists_notCnf_of_clauseOf {x : NormalFormError} (h : clauseOf e = .error x) :
    ∃ s, x = .notCnf s := by
  rcases bind_eq_error_iff.mp h with h | ⟨ls, -, h⟩
  · exact exists_notCnf_of_literalsOf h
  · cases h

/-- So does a stack without clauses: a node of no known kind is not said to be allowed. -/
theorem exists_notCnf_of_clausesOf {x : NormalFormError}
    (h : ClauseLearning.clausesOf es = .error x) : ∃ s, x = .notCnf s := by
  have hclause : ∀ {e : Expr} {rest : List Expr},
      (ClauseLearning.clausesOf rest = .error x → ∃ s, x = .notCnf s) →
      (do return (← clauseOf e) :: (← ClauseLearning.clausesOf rest)) =
        (Except.error x : Except NormalFormError (List Clause)) → ∃ s, x = .notCnf s := by
    intro e rest hrest h
    rcases bind_eq_error_iff.mp h with h | ⟨c, -, h⟩
    · exact exists_notCnf_of_clauseOf h
    · rcases bind_eq_error_iff.mp h with h | ⟨ds, -, h⟩
      · exact hrest h
      · cases h
  fun_induction ClauseLearning.clausesOf es with
  | case1 => cases h
  | case2 | case4 =>
    cases h
    exact ⟨_, rfl⟩
  | case3 e rest hcnf hkind x y ho ih => exact ih h
  | case5 e rest hcnf hkind ih => exact hclause ih h
  | case6 e rest hcnf l hkind ih => exact hclause ih h
  | case7 e rest hcnf hkind =>
    have hfalse := isCnf_eq_false_iff.mpr hkind
    simp [hfalse] at hcnf

theorem flatten_eq_error_iff : (∃ s, flatten e = .error (.notCnf s)) ↔ ¬e.IsCnf := by
  constructor
  · rintro ⟨s, h⟩ hcnf
    obtain ⟨cs, hcs⟩ := hcnf.exists_flatten
    rw [hcs] at h
    cases h
  · intro hcnf
    cases hflatten : flatten e with
    | ok cs => exact absurd (flatten_eq_ok_iff.mp hflatten).1 hcnf
    | error x =>
      obtain ⟨s, rfl⟩ := exists_notCnf_of_clausesOf hflatten
      exact ⟨s, rfl⟩

end Expr

/-! ## Satisfiability of expressions -/

theorem checkSat_eq_error_iff {ν : Type} [CnfNode ν] {root : ν} {x : NormalFormError} :
    checkSat root = .error x ↔ flatten root = .error x := by
  simp only [checkSat]
  cases flatten root <;> simp [bind, Except.bind, pure, Except.pure]

theorem checkSat_of_flatten {ν : Type} [CnfNode ν] {root : ν} {cs : List Clause}
    (h : flatten root = .ok cs) :
    checkSat root = .ok ((Engine.ofFormula cs default).solve.1 == .sat) := by
  rw [checkSat, h]
  rfl

/-- An engine gives an answer for the clauses of an expression, and it is right. -/
theorem exists_checkSat {e : Expr} {cs : List Clause} (h : flatten e = .ok cs) : ∃ sat : Bool,
    checkSat e = .ok sat ∧ (Engine.ofFormula cs default).solve.1 = (if sat then .sat else .unsat) ∧
      (sat = true ↔ ∃ a, e.eval a = true) := by
  have heval : Satisfiable cs ↔ ∃ a, e.eval a = true :=
    exists_congr fun a => (e.eval_iff_satisfies a h).symm
  rw [checkSat_of_flatten h]
  rcases Session.solve_ofFormula cs default with ⟨hsolve, hsat⟩ | ⟨hsolve, hunsat⟩
  · exact ⟨true, by simp [hsolve], hsolve, by simpa using heval.mp hsat⟩
  · exact ⟨false, by simp [hsolve], hsolve, by simpa using mt heval.mpr hunsat⟩

/-- Flattening accepts exactly the expressions in conjunctive normal form. It reads one clause off
each maximal subexpression that is no conjunction, from left to right, and the expression is true
exactly where each of them has a true literal. So satisfiability is decided exactly for these
expressions: an engine answers for their clauses, and is right about the expression. -/
theorem checkSat_decides (e : Expr) :
    ((∃ cs, flatten e = .ok cs) ↔ e.IsCnf) ∧
    (∀ cs, flatten e = .ok cs → List.Forall₂ Expr.ReadsAs e.conjuncts cs ∧
      ∀ a, e.eval a = true ↔ ∀ c ∈ cs, ∃ l ∈ c, l.Holds a) ∧
    ((∃ s, checkSat e = .error (.notCnf s)) ↔ ¬e.IsCnf) ∧
    (e.IsCnf → ∃ cs sat, flatten e = .ok cs ∧ checkSat e = .ok sat ∧
      (Engine.ofFormula cs default).solve.1 = (if sat then .sat else .unsat) ∧
      (sat = true ↔ ∃ a, e.eval a = true)) := by
  refine ⟨⟨fun ⟨cs, hcs⟩ => (Expr.flatten_eq_ok_iff.mp hcs).1, Expr.IsCnf.exists_flatten⟩,
    fun cs hcs => ⟨(Expr.flatten_eq_ok_iff.mp hcs).2, fun a => e.eval_iff_satisfies a hcs⟩, ?_,
    fun hcnf => ?_⟩
  · simp only [checkSat_eq_error_iff]
    exact Expr.flatten_eq_error_iff
  · obtain ⟨cs, hcs⟩ := hcnf.exists_flatten
    obtain ⟨sat, hsat⟩ := exists_checkSat hcs
    exact ⟨cs, sat, hcs, hsat⟩

/-- A tautology, and one literal twice. -/
def Expr.redundant : Expr := .and (.or (.var 1) (.not (.var 1))) (.and (.var 2) (.var 2))

/-- The tautology and both copies of the literal are clauses of their own. -/
theorem redundant_decided : Expr.redundant.IsCnf ∧
    (∃ cs, flatten Expr.redundant = .ok cs ∧
      List.Forall₂ Expr.ReadsAs [.or (.var 1) (.not (.var 1)), .var 2, .var 2] cs) ∧
    checkSat Expr.redundant = .ok true := by
  have hliteral : ∀ {id}, id ≠ 0 → (Expr.var id).IsDisjunction := fun h => .literal (.var h)
  have hcnf : Expr.redundant.IsCnf :=
    .and (.disjunction (.or (hliteral (by decide)) (.literal (.not (by decide)))))
      (.and (.disjunction (hliteral (by decide))) (.disjunction (hliteral (by decide))))
  obtain ⟨-, hclauses, -, hdecides⟩ := checkSat_decides Expr.redundant
  obtain ⟨cs, sat, hcs, hcheck, -, hsat⟩ := hdecides hcnf
  obtain rfl : sat = true := hsat.mpr ⟨fun _ => true, rfl⟩
  exact ⟨hcnf, ⟨cs, hcs, (hclauses cs hcs).1⟩, hcheck⟩

end ClauseLearning
