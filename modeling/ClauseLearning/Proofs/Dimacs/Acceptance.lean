import ClauseLearning.Proofs.Dimacs.Reading

/-!
# The texts that are formulas

A text is accepted if its headers are well formed, its tokens are numerals, and their numbers fall
into blocks that end with zero. Each block is a clause.

* `Splits`: numbers in blocks.
* `Collects.foldlM_readNumber`, `exists_foldlM_readNumber`: what is read of numbers is their blocks.
* `parse_spec`: the texts that are accepted, and their clauses.
-/

namespace ClauseLearning

namespace Dimacs

/-! ## Blocks -/

/-- The numbers are these blocks, at least one and none of them empty, with a zero behind each. -/
structure Splits (ns : List Int) (blocks : List (List Int)) : Prop where
  eq : ns = blocks.flatMap (· ++ [0])
  ne_nil : blocks ≠ []
  block : ∀ b ∈ blocks, b ≠ [] ∧ 0 ∉ b

/-- What stands before the first zero is determined. -/
private theorem eq_of_append_zero {b b' ms ms' : List Int} (hb : 0 ∉ b) (hb' : 0 ∉ b')
    (h : b ++ 0 :: ms = b' ++ 0 :: ms') : b = b' ∧ ms = ms' := by
  induction b generalizing b' with
  | nil =>
    cases b' with
    | nil => exact ⟨rfl, (List.cons.inj h).2⟩
    | cons n b' => exact absurd ((List.cons.inj h).1 ▸ List.mem_cons_self) hb'
  | cons m b ih =>
    rw [List.mem_cons, not_or] at hb
    cases b' with
    | nil => exact absurd (List.cons.inj h).1.symm hb.1
    | cons n b' =>
      rw [List.mem_cons, not_or] at hb'
      obtain ⟨rfl, htail⟩ := List.cons.inj h
      obtain ⟨rfl, hms⟩ := ih hb.2 hb'.2 htail
      exact ⟨rfl, hms⟩

/-- Numbers fall into blocks in one way only. -/
theorem Splits.unique {ns : List Int} {blocks blocks' : List (List Int)} (h : Splits ns blocks)
    (h' : Splits ns blocks') : blocks = blocks' := by
  have key : ∀ {xs ys : List (List Int)}, (∀ b ∈ xs, 0 ∉ b) → (∀ b ∈ ys, 0 ∉ b) →
      xs.flatMap (· ++ [0]) = ys.flatMap (· ++ [0]) → xs = ys := by
    intro xs
    induction xs with
    | nil =>
      intro ys _ _ heq
      cases ys with
      | nil => rfl
      | cons b ys => simp at heq
    | cons b xs ih =>
      intro ys hx hy heq
      cases ys with
      | nil => simp at heq
      | cons c ys =>
        simp only [List.flatMap_cons, List.append_assoc, List.singleton_append] at heq
        rw [List.forall_mem_cons] at hx hy
        obtain ⟨rfl, htail⟩ := eq_of_append_zero hx.1 hy.1 heq
        rw [ih hx.2 hy.2 htail]
  exact key (fun b hb => (h.block b hb).2) (fun b hb => (h'.block b hb).2) (h.eq.symm.trans h'.eq)

/-! ## Reading numbers -/

section Numbers

variable {q q' : Array Expr × Array Literal} {lss : List (List Literal)} {ns : List Int}

/-- The clauses that are complete are disjunctions of these literals. -/
structure Collects (q : Array Expr × Array Literal) (lss : List (List Literal)) : Prop where
  clauses : List.Forall₂ (fun e ls => Expr.Joined Expr.or e (ls.map Expr.ofLiteral)) q.1.toList lss
  ne_nil : ∀ ls ∈ lss, ls ≠ []

/-- The numbers of complete clauses and of one that is not. -/
def numbersOf (lss : List (List Literal)) (current : List Literal) : List Int :=
  lss.flatMap (fun ls => ls.map Literal.toInt ++ [0]) ++ current.map Literal.toInt

theorem readNumber_toInt (l : Literal) : readNumber q l.toInt = some (q.1, q.2.push l) := by
  simp [readNumber, Literal.ofInt_toInt]

theorem exists_readNumber_zero (h : q.2 ≠ #[]) : ∃ clause,
    readNumber q 0 = some (q.1.push clause, #[]) ∧
      Expr.Joined Expr.or clause (q.2.toList.map Expr.ofLiteral) := by
  have hne : q.2.toList.map Expr.ofLiteral ≠ [] := by simpa using h
  obtain ⟨clause, hclause, hjoined⟩ := Expr.exists_balanced Expr.or hne
  refine ⟨clause, ?_, hjoined⟩
  show (Expr.disjunction _).map _ = _
  rw [Expr.disjunction, hclause]
  rfl

/-- Each number becomes part of what is collected. -/
theorem Collects.readNumber {n : Int} (h : Collects q lss)
    (hn : Dimacs.readNumber q n = some q') : ∃ lss', Collects q' lss' ∧
      numbersOf lss' q'.2.toList = numbersOf lss q.2.toList ++ [n] := by
  by_cases hzero : n = 0
  · subst hzero
    have hne : q.2 ≠ #[] := by
      intro hnil
      simp [Dimacs.readNumber, hnil, Literal.ofInt, Var.ofNat?, Expr.disjunction,
        Expr.balanced] at hn
    obtain ⟨clause, hclause, hjoined⟩ := exists_readNumber_zero hne
    obtain rfl := Option.some.inj (hclause.symm.trans hn)
    refine ⟨lss ++ [q.2.toList], ⟨?_, ?_⟩, by simp [numbersOf]⟩
    · rw [Array.toList_push]
      exact List.rel_append h.clauses (.cons hjoined .nil)
    · intro ls hls
      rcases List.mem_append.mp hls with hls | hls
      · exact h.ne_nil ls hls
      · rw [List.mem_singleton.mp hls]
        simpa using hne
  · obtain ⟨l, rfl⟩ := Literal.exists_toInt hzero
    obtain rfl := Option.some.inj ((readNumber_toInt l).symm.trans hn)
    exact ⟨lss, ⟨h.clauses, h.ne_nil⟩, by simp [numbersOf]⟩

theorem Collects.foldlM_readNumber (h : Collects q lss)
    (hns : ns.foldlM Dimacs.readNumber q = some q') : ∃ lss', Collects q' lss' ∧
      numbersOf lss' q'.2.toList = numbersOf lss q.2.toList ++ ns := by
  induction ns generalizing q lss with
  | nil =>
    cases hns
    exact ⟨lss, h, (List.append_nil _).symm⟩
  | cons n ns ih =>
    rw [List.foldlM_cons, Option.bind_eq_bind, Option.bind_eq_some_iff] at hns
    obtain ⟨q₁, hn, hns⟩ := hns
    obtain ⟨lss₁, h₁, heq₁⟩ := h.readNumber hn
    obtain ⟨lss', h', heq⟩ := ih h₁ hns
    exact ⟨lss', h', by rw [heq, heq₁, List.append_assoc, List.singleton_append]⟩

theorem foldlM_readNumber_literals (ls : List Literal) :
    (ls.map Literal.toInt).foldlM readNumber q = some (q.1, q.2 ++ ls.toArray) := by
  induction ls generalizing q with
  | nil => simp
  | cons l ls ih =>
    rw [List.map_cons, List.foldlM_cons, readNumber_toInt]
    show List.foldlM _ _ _ = _
    rw [ih]
    simp

/-- Numbers without a zero are literals. -/
theorem exists_literals {b : List Int} (h : 0 ∉ b) : ∃ ls : List Literal, ls.map Literal.toInt = b := by
  induction b with
  | nil => exact ⟨[], rfl⟩
  | cons n b ih =>
    rw [List.mem_cons, not_or] at h
    obtain ⟨l, rfl⟩ := Literal.exists_toInt (Ne.symm h.1)
    obtain ⟨ls, rfl⟩ := ih h.2
    exact ⟨l :: ls, rfl⟩

/-- Blocks that are not empty can be read, one clause for each. -/
theorem exists_foldlM_readNumber {blocks : List (List Int)} (h : ∀ b ∈ blocks, b ≠ [] ∧ 0 ∉ b)
    (hq : q.2 = #[]) : ∃ q', (blocks.flatMap (· ++ [0])).foldlM readNumber q = some q' ∧
      q'.2 = #[] ∧ q'.1.size = q.1.size + blocks.length := by
  induction blocks generalizing q with
  | nil => exact ⟨q, rfl, hq, rfl⟩
  | cons b blocks ih =>
    obtain ⟨⟨hne, hzero⟩, hrest⟩ := List.forall_mem_cons.mp h
    obtain ⟨ls, rfl⟩ := exists_literals hzero
    obtain ⟨clause, hclause, -⟩ := exists_readNumber_zero (q := (q.1, ls.toArray)) (by simpa using hne)
    obtain ⟨q', hblocks, hcurrent, hsize⟩ := ih (q := (q.1.push clause, #[])) hrest rfl
    refine ⟨q', ?_, hcurrent, ?_⟩
    · rw [List.flatMap_cons, List.append_assoc, List.foldlM_append, foldlM_readNumber_literals, hq,
        Array.empty_append]
      show (([0] ++ _).foldlM readNumber _) = _
      rw [List.singleton_append, List.foldlM_cons, hclause]
      exact hblocks
    · rw [hsize, Array.size_push, List.length_cons]
      omega

/-- The numbers of complete clauses fall into their blocks. -/
theorem Collects.splits (h : Collects q lss) (hq : q.1 ≠ #[]) :
    Splits (numbersOf lss []) (lss.map fun ls => ls.map Literal.toInt) where
  eq := by simp [numbersOf, List.flatMap_map]
  ne_nil := by
    have hlength := h.clauses.length_eq
    intro hnil
    rw [List.map_eq_nil_iff.mp hnil, List.length_nil, List.length_eq_zero_iff] at hlength
    exact hq (Array.toList_eq_nil_iff.mp hlength)
  block b hb := by
    obtain ⟨ls, hls, rfl⟩ := List.mem_map.mp hb
    refine ⟨by simpa using h.ne_nil ls hls, fun hzero => ?_⟩
    obtain ⟨l, -, hl⟩ := List.mem_map.mp hzero
    exact l.toInt_ne_zero hl

end Numbers

/-! ## Accepted texts -/

variable {text : String} {d : Document}

/-- The formula of an accepted text has one disjunction for each block. -/
theorem exists_collects (h : parse text = .ok d) : ∃ ns clauses lss, Denote (dataTokens text) ns ∧
    ns.foldlM readNumber (#[], #[]) = some (clauses, #[]) ∧
    Expr.conjunction clauses.toList = some d.formula ∧ Collects (clauses, #[]) lss ∧
    Splits ns (lss.map fun ls => ls.map Literal.toInt) := by
  obtain ⟨-, ns, clauses, hns, hnumbers, hformula⟩ := parse_iff_readNumber.mp ⟨d, h, rfl⟩
  have hempty : Collects (#[], #[]) [] := ⟨.nil, fun _ hls => absurd hls List.not_mem_nil⟩
  obtain ⟨lss, hcollects, heq⟩ := hempty.foldlM_readNumber hnumbers
  have hne : clauses ≠ #[] := by
    rintro rfl
    simp [Expr.conjunction, Expr.balanced] at hformula
  have hsplits := hcollects.splits hne
  rw [heq] at hsplits
  exact ⟨ns, clauses, lss, hns, hnumbers, hformula, hcollects, hsplits⟩

/-- A text with well-formed headers whose tokens denote blocks is accepted. -/
theorem exists_parse {ns : List Int} {blocks : List (List Int)}
    (hheaders : ∀ rest ∈ headers text, IsHeader rest) (hns : Denote (dataTokens text) ns)
    (hsplits : Splits ns blocks) : ∃ d, parse text = .ok d := by
  obtain ⟨⟨clauses, current⟩, hnumbers, hcurrent, hsize⟩ :=
    exists_foldlM_readNumber (q := (#[], #[])) hsplits.block rfl
  obtain rfl : current = #[] := hcurrent
  have hne : clauses.toList ≠ [] := by
    have := List.length_pos_iff.mpr hsplits.ne_nil
    intro hnil
    rw [Array.toList_eq_nil_iff.mp hnil] at hsize
    simp at hsize
    omega
  obtain ⟨formula, hformula, -⟩ := Expr.exists_balanced Expr.and hne
  rw [← hsplits.eq] at hnumbers
  obtain ⟨d, hd, -⟩ := parse_iff_readNumber.mpr ⟨hheaders, ns, clauses, hns, hnumbers, hformula⟩
  exact ⟨d, hd⟩

theorem flatten_of_collects {clauses : Array Expr} {lss : List (List Literal)} {formula : Expr}
    (h : Collects (clauses, #[]) lss) (hformula : Expr.conjunction clauses.toList = some formula) :
    flatten formula = .ok (lss.map Clause.ofList) := by
  have hne : clauses.toList ≠ [] := by
    intro hnil
    simp [hnil, Expr.conjunction, Expr.balanced] at hformula
  obtain ⟨e, he, hjoined⟩ := Expr.exists_balanced Expr.and hne
  obtain rfl := Option.some.inj (he.symm.trans hformula)
  exact hjoined.flatten_eq h.clauses

/-- The formula of an accepted text can be flattened. -/
theorem exists_flatten (h : parse text = .ok d) : ∃ f, flatten d.formula = .ok f := by
  obtain ⟨ns, clauses, lss, -, -, hformula, hcollects, -⟩ := exists_collects h
  exact ⟨_, flatten_of_collects hcollects hformula⟩

/-- The texts that are accepted, and what they mean: headers and tokens have to be well formed, and
the numbers of the tokens have to fall into blocks that end with zero. Then the formula can be
flattened to one clause for each block, with the literals of the block. Texts with the same tokens
have the same formula. -/
theorem parse_spec (text : String) :
    ((∃ d, parse text = .ok d) ↔ (∀ rest ∈ headers text, IsHeader rest) ∧
      ∃ ns blocks, Denote (dataTokens text) ns ∧ Splits ns blocks) ∧
    (∀ d ns blocks, parse text = .ok d → Denote (dataTokens text) ns → Splits ns blocks →
      ∃ cs, flatten d.formula = .ok cs ∧
        List.Forall₂ (fun b c => ∀ l, l ∈ c ↔ l.toInt ∈ b) blocks cs) ∧
    ∀ d text' d', parse text = .ok d → parse text' = .ok d' → dataTokens text = dataTokens text' →
      d.formula = d'.formula := by
  refine ⟨⟨?_, fun ⟨hheaders, ns, blocks, hns, hsplits⟩ => exists_parse hheaders hns hsplits⟩,
    fun d ns blocks hd hns hsplits => ?_, fun d text' d' hd hd' htokens => ?_⟩
  · rintro ⟨d, hd⟩
    obtain ⟨ns, clauses, lss, hns, -, -, -, hsplits⟩ := exists_collects hd
    obtain ⟨hheaders, -⟩ := parse_iff_readNumber.mp ⟨d, hd, rfl⟩
    exact ⟨hheaders, ns, _, hns, hsplits⟩
  · obtain ⟨ms, clauses, lss, hms, -, hformula, hcollects, hsplits'⟩ := exists_collects hd
    obtain rfl := hns.unique hms
    obtain rfl := hsplits.unique hsplits'
    refine ⟨_, flatten_of_collects hcollects hformula, ?_⟩
    rw [List.forall₂_map_left_iff, List.forall₂_map_right_iff, List.forall₂_same]
    intro ls _ l
    rw [Clause.mem_ofList]
    constructor
    · exact List.mem_map_of_mem
    · intro hl
      obtain ⟨m, hm, heq⟩ := List.mem_map.mp hl
      exact Literal.toInt_inj heq ▸ hm
  · obtain ⟨ns, clauses, -, hns, hnumbers, hformula, -⟩ := exists_collects hd
    obtain ⟨ns', clauses', -, hns', hnumbers', hformula', -⟩ := exists_collects hd'
    obtain rfl := hns.unique (htokens ▸ hns')
    obtain ⟨rfl, -⟩ := Prod.mk.inj (Option.some.inj (hnumbers.symm.trans hnumbers'))
    exact Option.some.inj (hformula.symm.trans hformula')

/-- Two clauses, with a header in the middle of the first one. -/
def interrupted : String := "c two clauses\n 1 -2\np cnf 0 9\n0 +5\n0\n%\n0 x"

/-- It is accepted, and has the clauses of its numbers. -/
theorem interrupted_accepted : ∃ d cs, parse interrupted = .ok d ∧ flatten d.formula = .ok cs ∧
    List.Forall₂ (fun b c => ∀ l, l ∈ c ↔ l.toInt ∈ b) [[1, -2], [5]] cs := by
  obtain ⟨hparse, hflatten, -⟩ := parse_spec interrupted
  have hheaders : headers interrupted = [" cnf 0 9".toList] := by decide +kernel
  have hheader : IsHeader " cnf 0 9".toList := exists_readHeader_iff.mp ⟨9, by decide +kernel⟩
  have hns : Denote (dataTokens interrupted) [1, -2, 0, 5, 0] := by
    rw [denote_iff]
    decide +kernel
  have hsplits : Splits [1, -2, 0, 5, 0] [[1, -2], [5]] := ⟨rfl, by decide, by decide⟩
  obtain ⟨d, hd⟩ := hparse.mpr ⟨by simpa [hheaders] using hheader, _, _, hns, hsplits⟩
  obtain ⟨cs, hcs, hblocks⟩ := hflatten d _ _ hd hns hsplits
  exact ⟨d, cs, hd, hcs, hblocks⟩

end Dimacs

end ClauseLearning
