import ClauseLearning.Dimacs
import ClauseLearning.Proofs.Logic.NormalForm
import ClauseLearning.Proofs.Text.Numerals

/-!
# What is read of a text

The reader goes through a text once, line by line and token by token. What it reads can be said
without this order: the headers and the tokens of the text are taken apart first (`headers`,
`dataTokens`), and the formula depends on the numbers of the tokens only.

* `Denote`: tokens and their numbers.
* `readToken_iff`, `readLines_iff`: the reader follows the numbers.
* `parse_iff_readNumber`: the formula of a text.
-/

namespace ClauseLearning

namespace Dimacs

/-! ## Headers and tokens of a text -/

/-- The lines before the first that starts with `%`, each without the blanks at its ends. -/
def bodyOf (lines : List (List Char)) : List (List Char) :=
  (lines.map Text.trim).takeWhile fun line => line.head? != some '%'

/-- What stands behind the `p` of the lines that start with one. -/
def headersOf (body : List (List Char)) : List (List Char) :=
  body.filterMap fun
    | 'p' :: rest => some rest
    | _ => none

/-- Neither blank nor a comment nor a header. -/
def isData : List Char → Bool
  | [] | 'c' :: _ | 'p' :: _ => false
  | _ => true

/-- The tokens of the lines that are data. -/
def tokensOf (body : List (List Char)) : List (List Char) :=
  (body.filter isData).flatMap Text.fields

/-- The header lines of a text without their `p`, up to the line that ends the body. -/
def headers (text : String) : List (List Char) := headersOf (bodyOf (text.toList.splitOn '\n'))

/-- The tokens of the data lines of a text, up to the line that ends the body. -/
def dataTokens (text : String) : List (List Char) := tokensOf (bodyOf (text.toList.splitOn '\n'))

/-- The format `cnf` and two numbers. -/
def IsHeader (rest : List Char) : Prop :=
  ∃ vars clauses, Text.fields rest = ["cnf".toList, vars, clauses] ∧
    (∃ n, NumberBounds.unsigned64.Numeral vars n) ∧ ∃ n, NumberBounds.unsigned64.Numeral clauses n

/-- The tokens are numerals for these numbers. -/
def Denote (tokens : List (List Char)) (ns : List Int) : Prop :=
  List.Forall₂ NumberBounds.signed32.Numeral tokens ns

theorem denote_iff {tokens : List (List Char)} {ns : List Int} :
    Denote tokens ns ↔ tokens.map NumberBounds.signed32.read = ns.map .ok := by
  rw [← List.forall₂_eq_eq_eq, List.forall₂_map_left_iff, List.forall₂_map_right_iff]
  simp only [Denote, NumberBounds.read_eq_ok_iff]

/-- Tokens are numerals for one sequence of numbers. -/
theorem Denote.unique {tokens : List (List Char)} {ns ms : List Int} (h : Denote tokens ns)
    (h' : Denote tokens ms) : ns = ms := by
  rw [denote_iff] at h h'
  exact List.map_injective_iff.mpr (fun _ _ => Except.ok.inj) (h.symm.trans h')

theorem exists_readHeader_iff {rest : List Char} :
    (∃ n, readHeader rest = .ok n) ↔ IsHeader rest := by
  unfold readHeader IsHeader
  constructor
  · rintro ⟨n, h⟩
    split at h
    · next format vars clauses hfields =>
      split at h
      · cases h
      · next hformat =>
        obtain ⟨v, hv, h⟩ := bind_eq_ok_iff.mp h
        obtain ⟨c, hc, -⟩ := bind_eq_ok_iff.mp h
        rw [mapError_eq_ok_iff, NumberBounds.read_eq_ok_iff] at hv hc
        rw [Classical.not_not.mp hformat] at hfields
        exact ⟨vars, clauses, hfields, ⟨v, hv⟩, c, hc⟩
    · cases h
  · rintro ⟨vars, clauses, hfields, ⟨v, hv⟩, c, hc⟩
    rw [← NumberBounds.read_eq_ok_iff] at hv hc
    simp only [hfields, ne_eq, not_true_eq_false, ↓reduceIte, hv, hc]
    exact ⟨c.toNat, rfl⟩

/-! ## Reading tokens -/

/-- What a reading says about the formula: all but the header. -/
def Reading.content (s : Reading) : Array Expr × Array Literal := (s.clauses, s.current)

/-- What the next number makes of the clauses and of the clause that is not complete. A zero has to
end a clause. -/
def readNumber (q : Array Expr × Array Literal) (n : Int) : Option (Array Expr × Array Literal) :=
  match Literal.ofInt n with
  | .ok l => some (q.1, q.2.push l)
  | .error .zero => (Expr.disjunction (q.2.toList.map Expr.ofLiteral)).map fun clause =>
      (q.1.push clause, #[])

theorem readToken_iff {s : Reading} {token : List Char} {q : Array Expr × Array Literal} :
    (∃ s', readToken s token = .ok s' ∧ s'.content = q) ↔
      ∃ n, NumberBounds.signed32.Numeral token n ∧ readNumber s.content n = some q := by
  simp only [readToken, bind_eq_ok_iff, mapError_eq_ok_iff, NumberBounds.read_eq_ok_iff]
  constructor
  · rintro ⟨s', ⟨n, hn, h⟩, rfl⟩
    refine ⟨n, hn, ?_⟩
    unfold readNumber
    cases hl : Literal.ofInt n with
    | ok l =>
      rw [hl] at h
      cases h
      rfl
    | error e =>
      cases e
      rw [hl] at h
      cases hclause : Expr.disjunction (s.current.toList.map Expr.ofLiteral) with
      | none =>
        rw [hclause] at h
        cases h
      | some clause =>
        rw [hclause] at h
        cases h
        exact congrArg (Option.map _) hclause
  · rintro ⟨n, hn, h⟩
    unfold readNumber at h
    cases hl : Literal.ofInt n with
    | ok l =>
      rw [hl] at h
      cases h
      exact ⟨_, ⟨n, hn, by rw [hl]; rfl⟩, rfl⟩
    | error e =>
      cases e
      rw [hl] at h
      obtain ⟨clause, hclause, rfl⟩ := Option.map_eq_some_iff.mp h
      change Expr.disjunction (s.current.toList.map Expr.ofLiteral) = some clause at hclause
      exact ⟨_, ⟨n, hn, by rw [hl, hclause]; rfl⟩, rfl⟩

theorem foldlM_readToken_iff {s : Reading} {tokens : List (List Char)}
    {q : Array Expr × Array Literal} :
    (∃ s', tokens.foldlM readToken s = .ok s' ∧ s'.content = q) ↔
      ∃ ns, Denote tokens ns ∧ ns.foldlM readNumber s.content = some q := by
  induction tokens generalizing s with
  | nil =>
    constructor
    · rintro ⟨s', h, rfl⟩
      cases h
      exact ⟨[], .nil, rfl⟩
    · rintro ⟨ns, hns, h⟩
      cases hns
      cases h
      exact ⟨s, rfl, rfl⟩
  | cons token tokens ih =>
    simp only [List.foldlM_cons, bind_eq_ok_iff]
    constructor
    · rintro ⟨s', ⟨s₁, htoken, h⟩, hq⟩
      obtain ⟨n, hn, hnumber⟩ := readToken_iff.mp ⟨s₁, htoken, rfl⟩
      obtain ⟨ns, hns, hnumbers⟩ := ih.mp ⟨s', h, hq⟩
      refine ⟨n :: ns, .cons hn hns, ?_⟩
      rw [List.foldlM_cons, hnumber]
      exact hnumbers
    · rintro ⟨_, _ | ⟨hn, hns⟩, h⟩
      rw [List.foldlM_cons, Option.bind_eq_bind, Option.bind_eq_some_iff] at h
      obtain ⟨q₁, hnumber, hnumbers⟩ := h
      obtain ⟨s₁, htoken, rfl⟩ := readToken_iff.mpr ⟨_, hn, hnumber⟩
      obtain ⟨s', h, hq⟩ := ih.mpr ⟨_, hns, hnumbers⟩
      exact ⟨s', ⟨s₁, htoken, h⟩, hq⟩

/-! ## Reading lines -/

section Lines

variable {line : List Char} {lines : List (List Char)} {s : Reading} {q : Array Expr × Array Literal}

theorem bodyOf_cons (h : (Text.trim line).head? ≠ some '%') :
    bodyOf (line :: lines) = Text.trim line :: bodyOf lines := by
  simp [bodyOf, h]

theorem bodyOf_cons_end (h : (Text.trim line).head? = some '%') :
    bodyOf (line :: lines) = [] := by
  simp [bodyOf, h]

theorem denote_append {xs ys : List (List Char)} {ns : List Int} :
    Denote (xs ++ ys) ns ↔ ∃ ms ms', Denote xs ms ∧ Denote ys ms' ∧ ns = ms ++ ms' := by
  constructor
  · intro h
    refine ⟨ns.take xs.length, ns.drop xs.length, ?_, ?_, (List.take_append_drop _ _).symm⟩
    · simpa [Denote] using List.forall₂_take xs.length h
    · simpa [Denote] using List.forall₂_drop xs.length h
  · rintro ⟨ms, ms', h, h', rfl⟩
    exact List.rel_append h h'

theorem headersOf_cons_header (rest : List Char) (body : List (List Char)) :
    headersOf (('p' :: rest) :: body) = rest :: headersOf body := rfl

theorem headersOf_cons_of_isData {body : List (List Char)} (h : isData line = true) :
    headersOf (line :: body) = headersOf body := by
  unfold headersOf
  rw [List.filterMap_cons_none]
  split
  · cases h
  · rfl

theorem tokensOf_cons_of_isData {body : List (List Char)} (h : isData line = true) :
    tokensOf (line :: body) = Text.fields line ++ tokensOf body := by
  simp [tokensOf, h]

theorem tokensOf_cons_of_not_isData {body : List (List Char)} (h : isData line = false) :
    tokensOf (line :: body) = tokensOf body := by
  simp [tokensOf, h]

/-- Of the lines only the headers and the tokens matter. -/
theorem readLines_iff {n : Nat} :
    (∃ s', readLines n lines s = .ok s' ∧ s'.content = q) ↔
      (∀ rest ∈ headersOf (bodyOf lines), IsHeader rest) ∧
      ∃ ns, Denote (tokensOf (bodyOf lines)) ns ∧ ns.foldlM readNumber s.content = some q := by
  induction lines generalizing n s with
  | nil => simp [readLines, bodyOf, headersOf, tokensOf, Denote]
  | cons line lines ih =>
    rw [readLines]
    split
    · next hline =>
      rw [bodyOf_cons (by simp [hline]), hline, ih]
      rfl
    · next rest hline =>
      rw [bodyOf_cons (by simp [hline]), hline, ih]
      rfl
    · next rest hline =>
      rw [bodyOf_cons_end (by simp [hline])]
      simp [headersOf, tokensOf, Denote]
    · next rest hline =>
      rw [bodyOf_cons (by simp [hline]), hline, headersOf_cons_header,
        tokensOf_cons_of_not_isData rfl, List.forall_mem_cons, ← exists_readHeader_iff, and_assoc]
      simp only [bind_eq_ok_iff, mapError_eq_ok_iff]
      cases hheader : readHeader rest with
      | error x => simp
      | ok m =>
        have hih := ih (n := n + 1) (s := { s with declared := some m })
        simpa [Reading.content] using hih
    · next hnil hcomment hend hheader =>
      have hdata : isData (Text.trim line) = true := by
        unfold isData
        split <;> simp_all
      have hne : (Text.trim line).head? ≠ some '%' := by
        intro h
        obtain ⟨rest, hrest⟩ := List.head?_eq_some_iff.mp h
        exact hend rest hrest
      rw [bodyOf_cons hne, headersOf_cons_of_isData hdata, tokensOf_cons_of_isData hdata]
      simp only [bind_eq_ok_iff, mapError_eq_ok_iff]
      constructor
      · rintro ⟨s', ⟨s₁, htokens, hlines⟩, hq⟩
        obtain ⟨ms, hms, hnumbers⟩ := foldlM_readToken_iff.mp ⟨s₁, htokens, rfl⟩
        obtain ⟨hheaders, ns, hns, hnumbers'⟩ := ih.mp ⟨s', hlines, hq⟩
        refine ⟨hheaders, ms ++ ns, denote_append.mpr ⟨ms, ns, hms, hns, rfl⟩, ?_⟩
        rw [List.foldlM_append, hnumbers]
        exact hnumbers'
      · rintro ⟨hheaders, _, hdenote, hnumbers⟩
        obtain ⟨ms, ns, hms, hns, rfl⟩ := denote_append.mp hdenote
        rw [List.foldlM_append, Option.bind_eq_bind, Option.bind_eq_some_iff] at hnumbers
        obtain ⟨q₁, hnumbers, hnumbers'⟩ := hnumbers
        obtain ⟨s₁, htokens, rfl⟩ := foldlM_readToken_iff.mpr ⟨ms, hms, hnumbers⟩
        obtain ⟨s', hlines, hq⟩ := ih.mpr ⟨hheaders, ns, hns, hnumbers'⟩
        exact ⟨s', ⟨s₁, htokens, hlines⟩, hq⟩

end Lines

/-! ## Texts -/

variable {text : String} {d : Document}

theorem parse_iff {formula : Expr} : (∃ d, parse text = .ok d ∧ d.formula = formula) ↔
    ∃ s, readLines 1 (text.toList.splitOn '\n') ⟨#[], #[], none⟩ = .ok s ∧ s.current = #[] ∧
      Expr.conjunction s.clauses.toList = some formula := by
  simp only [parse, bind_eq_ok_iff]
  constructor
  · rintro ⟨d, ⟨s, hs, h⟩, rfl⟩
    cases hempty : s.current.isEmpty with
    | false =>
      rw [hempty] at h
      cases h
    | true =>
      rw [hempty] at h
      cases hformula : Expr.conjunction s.clauses.toList with
      | none =>
        rw [hformula] at h
        cases h
      | some formula =>
        rw [hformula] at h
        cases h
        exact ⟨s, hs, Array.isEmpty_iff.mp hempty, hformula⟩
  · rintro ⟨s, hs, hcurrent, hformula⟩
    refine ⟨⟨formula, s.clauses.size, s.declared⟩, ⟨s, hs, ?_⟩, rfl⟩
    rw [hcurrent, hformula]
    rfl

/-- The formula of a text is the conjunction of what is read of its tokens. -/
theorem parse_iff_readNumber {formula : Expr} : (∃ d, parse text = .ok d ∧ d.formula = formula) ↔
    (∀ rest ∈ headers text, IsHeader rest) ∧ ∃ ns clauses, Denote (dataTokens text) ns ∧
      ns.foldlM readNumber (#[], #[]) = some (clauses, #[]) ∧
      Expr.conjunction clauses.toList = some formula := by
  have key (q) : (∃ s, readLines 1 (text.toList.splitOn '\n') ⟨#[], #[], none⟩ = .ok s ∧
      s.content = q) ↔ _ := readLines_iff
  rw [parse_iff]
  constructor
  · rintro ⟨s, hs, hcurrent, hformula⟩
    obtain ⟨hheaders, ns, hns, hnumbers⟩ := (key s.content).mp ⟨s, hs, rfl⟩
    have hcontent : s.content = (s.clauses, #[]) := Prod.ext rfl hcurrent
    exact ⟨hheaders, ns, s.clauses, hns, hcontent ▸ hnumbers, hformula⟩
  · rintro ⟨hheaders, ns, clauses, hns, hnumbers, hformula⟩
    obtain ⟨s, hs, hcontent⟩ := (key _).mpr ⟨hheaders, ns, hns, hnumbers⟩
    obtain ⟨rfl, hcurrent⟩ := Prod.mk.inj hcontent
    exact ⟨s, hs, hcurrent, hformula⟩

end Dimacs

end ClauseLearning
