import ClauseLearning.Logic.Clause

/-!
# Clauses as sets

A clause is the set of the literals that it is made from, however it is made. As its literals are in
ascending order, a variable and its negation are neighbours.

* `Literal.Precedes`: the order of literals.
* `Clause.neighboursShareVar_iff`: complementary literals are found by comparing neighbours.
* `Clause.ofList_canonical`: clauses from any source, and what is decided about them.
-/

namespace ClauseLearning

/-- The order of literals: by variable, and of one variable the positive literal first. -/
def Literal.Precedes (a b : Literal) : Prop :=
  a.var.id < b.var.id ∨ a.var = b.var ∧ a.positive ∧ ¬b.positive

/-- At most one place lies between a literal and its negation. -/
theorem Literal.code_negate_le (l : Literal) : l.negate.code ≤ l.code + 1 := by
  cases hl : l.positive with
  | true => exact Nat.le_of_eq (code_negate hl)
  | false =>
    have hcode := code_negate (l := l.negate) (by simp [hl])
    rw [negate_negate] at hcode
    omega

/-- The literals that numbers denote. -/
theorem Literal.mapM_ofInt (ls : List Literal) : (ls.map toInt).mapM ofInt = .ok ls := by
  induction ls with
  | nil => rfl
  | cons l ls ih =>
    rw [List.map_cons, List.mapM_cons, ofInt_toInt, ih]
    rfl

namespace Clause

variable {l : Literal} {ls : List Literal}

theorem toList_ofList (ls : List Literal) :
    (LiteralSet.ofList ls).toList = Ascending.ofList Literal.code ls := by
  induction ls with
  | nil => rfl
  | cons l ls ih =>
    show Ascending.insert Literal.code l (LiteralSet.ofList ls).toList = _
    rw [ih]
    rfl

theorem ofSet_ofList (ls : List Literal) : ofSet (.ofList ls) = ofList ls := by
  unfold ofSet ofList
  congr
  exact toList_ofList ls

theorem ofInts_toInt (ls : List Literal) : ofInts (ls.map Literal.toInt) = .ok (ofList ls) := by
  rw [ofInts, Literal.mapM_ofInt]
  rfl

theorem ofLiteral_eq (l : Literal) : ofLiteral l = ofList [l] := rfl

theorem pairwise_precedes (c : Clause) : c.literals.toList.Pairwise Literal.Precedes :=
  c.ascending.imp Literal.code_lt_iff.mp

theorem ofList_eq_iff {ms : List Literal} : ofList ls = ofList ms ↔ ∀ l, l ∈ ls ↔ l ∈ ms := by
  constructor
  · intro h l
    rw [← mem_ofList, h, mem_ofList]
  · intro h
    refine ext_mem fun l => ?_
    rw [mem_ofList, mem_ofList, h]

/-- A literal and its negation are neighbours in an ascending list: nothing fits between them. -/
theorem neighboursShareVar_iff (h : Ascending.Sorted Literal.code ls) :
    neighboursShareVar ls = true ↔ ∃ l ∈ ls, l.negate ∈ ls := by
  fun_induction neighboursShareVar ls with
  | case1 a b rest ih =>
    obtain ⟨ha, hrest⟩ := List.pairwise_cons.mp h
    have hab : a.code < b.code := ha b List.mem_cons_self
    rw [Bool.or_eq_true, beq_iff_eq, ih hrest]
    constructor
    · rintro (hvar | ⟨l, hl, hneg⟩)
      · rcases Literal.eq_or_eq_negate hvar with rfl | rfl
        · omega
        · exact ⟨b, by simp, by simp⟩
      · exact ⟨l, List.mem_cons_of_mem _ hl, List.mem_cons_of_mem _ hneg⟩
    · -- The literal with the smaller code is `a`, or both are behind it.
      have hhead : a.negate ∈ b :: rest → a.var = b.var := by
        intro hneg
        rcases List.mem_cons.mp hneg with heq | hneg
        · rw [← heq, Literal.negate_var]
        · have hlt : b.code < a.negate.code := (List.pairwise_cons.mp hrest).1 _ hneg
          have := a.code_negate_le
          omega
      rintro ⟨l, hl, hneg⟩
      rcases List.mem_cons.mp hl with rfl | hl
      · rcases List.mem_cons.mp hneg with heq | hneg
        · exact absurd heq l.negate_ne
        · exact .inl (hhead hneg)
      · rcases List.mem_cons.mp hneg with rfl | hneg
        · exact .inl (hhead (by rwa [Literal.negate_negate]))
        · exact .inr ⟨l, hl, hneg⟩
  | case2 ls hls =>
    match ls, hls with
    | [], _ => simp
    | [l], _ => simp [l.negate_ne]
    | a :: b :: rest, hls => exact absurd rfl (hls a b rest)

theorem isTautology_iff {c : Clause} : c.isTautology = true ↔ ∃ l ∈ c, l.negate ∈ c := by
  simp [isTautology, neighboursShareVar_iff c.ascending, mem_def]

end Clause

/-- A clause is the same whether it is made from a list, a set, numbers or a single literal. Its
literals are those given, in strictly ascending order, so it is determined by them as a set. Binary
search finds exactly these literals, and comparing neighbours finds out whether a literal and its
negation are among them. -/
theorem Clause.ofList_canonical (ls : List Literal) :
    ofSet (.ofList ls) = ofList ls ∧ ofInts (ls.map Literal.toInt) = .ok (ofList ls) ∧
    (∀ l, ofLiteral l = ofList [l]) ∧
    (ofList ls).literals.toList.Pairwise Literal.Precedes ∧
    (∀ l, l ∈ (ofList ls).literals ↔ l ∈ ls) ∧
    (∀ ms, ofList ls = ofList ms ↔ ∀ l, l ∈ ls ↔ l ∈ ms) ∧
    (∀ l, (ofList ls).contains l = true ↔ l ∈ ls) ∧
    ((ofList ls).isTautology = true ↔ ∃ l ∈ ls, l.negate ∈ ls) := by
  refine ⟨ofSet_ofList ls, ofInts_toInt ls, ofLiteral_eq, pairwise_precedes _, fun l => mem_ofList,
    fun ms => ofList_eq_iff, fun l => ?_, ?_⟩
  · rw [contains_iff, mem_ofList]
  · simp [isTautology_iff, mem_ofList]

end ClauseLearning
