import ClauseLearning.Proofs.Outcomes
import ClauseLearning.Text

/-!
# Decimal numerals

Reading a number, said without the order in which its characters are read: a sign or none, then at
least one digit, and the number they denote is within the bounds.

* `NumberBounds.Numeral`: the numerals, each with its number.
* `NumberBounds.read_eq_ok_iff`: exactly these can be read.
-/

namespace ClauseLearning

/-- The number that decimal digits denote behind those of `n`. -/
def decimalFrom (n : Nat) (cs : List Char) : Nat :=
  cs.foldl (fun n c => 10 * n + (c.toNat - '0'.toNat)) n

theorem decimalFrom_cons (n : Nat) (c : Char) (cs : List Char) :
    decimalFrom n (c :: cs) = decimalFrom (10 * n + (c.toNat - '0'.toNat)) cs := by
  rw [decimalFrom, List.foldl_cons, decimalFrom]

theorem le_decimalFrom (n : Nat) (cs : List Char) : n ≤ decimalFrom n cs := by
  induction cs generalizing n with
  | nil => exact Nat.le_refl n
  | cons c cs ih =>
    rw [decimalFrom_cons]
    exact Nat.le_trans (by omega) (ih _)

/-- At least one digit, and nothing else. -/
def IsDecimal (cs : List Char) : Prop := cs ≠ [] ∧ ∀ c ∈ cs, c.isDigit = true

/-- A sign is no digit. -/
theorem IsDecimal.head_ne {c : Char} {cs : List Char} (h : IsDecimal (c :: cs)) :
    c ≠ '+' ∧ c ≠ '-' := by
  have hc := h.2 c List.mem_cons_self
  constructor <;> rintro rfl <;> revert hc <;> decide

namespace NumberBounds

variable {b : NumberBounds} {c : Char} {cs : List Char} {n : Int}

/-- Decimal numerals within the bounds, and the numbers that they denote. There are numerals with a
minus sign only where there are negative numbers. -/
inductive Numeral (b : NumberBounds) : List Char → Int → Prop
  | plain {cs : List Char} (h : IsDecimal cs) (hle : decimalFrom 0 cs ≤ b.highest) :
      Numeral b cs (decimalFrom 0 cs)
  | plus {cs : List Char} (h : IsDecimal cs) (hle : decimalFrom 0 cs ≤ b.highest) :
      Numeral b ('+' :: cs) (decimalFrom 0 cs)
  | minus {cs : List Char} (h : IsDecimal cs) (hle : decimalFrom 0 cs ≤ b.lowest)
      (hsigned : b.lowest ≠ 0) : Numeral b ('-' :: cs) (-(decimalFrom 0 cs))

/-- Further digits do not make a magnitude smaller, so it is enough that the last one is within the
limit. -/
theorem readDigits_eq_ok_iff {limit : Nat} {beyond : NumberError} {n m : Nat} (hn : n ≤ limit) :
    readDigits limit beyond n cs = .ok m ↔
      (∀ c ∈ cs, c.isDigit = true) ∧ decimalFrom n cs ≤ limit ∧ m = decimalFrom n cs := by
  induction cs generalizing n with
  | nil =>
    have hnil : decimalFrom n [] = n := rfl
    rw [readDigits, hnil, Except.ok.injEq]
    exact ⟨fun h => ⟨fun _ hc => absurd hc List.not_mem_nil, hn, h.symm⟩, fun h => h.2.2.symm⟩
  | cons c cs ih =>
    rw [readDigits, decimalFrom_cons, List.forall_mem_cons]
    cases hc : c.isDigit with
    | false => simp
    | true =>
      rw [if_neg (by decide)]
      generalize 10 * n + (c.toNat - '0'.toNat) = k at ih ⊢
      rcases Nat.lt_or_ge limit k with hk | hk
      · have hle := le_decimalFrom k cs
        rw [if_pos hk]
        exact ⟨fun h => (by cases h), fun ⟨_, hlimit, _⟩ => by omega⟩
      · rw [if_neg (Nat.not_lt.mpr hk), ih hk]
        simp

section Read

/-- The digits of a number with a given sign. -/
private theorem readDigits_bind_eq_ok_iff {limit : Nat} {beyond : NumberError} {sign : Nat → Int}
    (hne : cs ≠ []) : (do return sign (← readDigits limit beyond 0 cs)) = Except.ok n ↔
      IsDecimal cs ∧ decimalFrom 0 cs ≤ limit ∧ n = sign (decimalFrom 0 cs) := by
  simp only [bind_eq_ok_iff, readDigits_eq_ok_iff (Nat.zero_le limit), IsDecimal]
  constructor
  · rintro ⟨m, ⟨hdigits, hle, rfl⟩, h⟩
    exact ⟨⟨hne, hdigits⟩, hle, (Except.ok.inj h).symm⟩
  · rintro ⟨⟨-, hdigits⟩, hle, rfl⟩
    exact ⟨_, ⟨hdigits, hle, rfl⟩, rfl⟩

private theorem read_plus (hne : cs ≠ []) : b.read ('+' :: cs) = .ok n ↔
    IsDecimal cs ∧ decimalFrom 0 cs ≤ b.highest ∧ n = decimalFrom 0 cs := by
  obtain ⟨d, ds, rfl⟩ := List.exists_cons_of_ne_nil hne
  exact readDigits_bind_eq_ok_iff hne

private theorem read_minus (hne : cs ≠ []) : b.read ('-' :: cs) = .ok n ↔
    b.lowest ≠ 0 ∧ IsDecimal cs ∧ decimalFrom 0 cs ≤ b.lowest ∧ n = -(decimalFrom 0 cs) := by
  obtain ⟨d, ds, rfl⟩ := List.exists_cons_of_ne_nil hne
  rw [read]
  · split
    · next h => simp [h]
    · next h => simp only [readDigits_bind_eq_ok_iff hne, ne_eq, h, not_false_iff, true_and]
  · exact fun h => by cases h

private theorem read_plain (hplus : c ≠ '+') (hminus : c ≠ '-') : b.read (c :: cs) = .ok n ↔
    IsDecimal (c :: cs) ∧ decimalFrom 0 (c :: cs) ≤ b.highest ∧
      n = decimalFrom 0 (c :: cs) := by
  rw [read]
  · exact readDigits_bind_eq_ok_iff (List.cons_ne_nil c cs)
  all_goals simp [hplus, hminus]

/-- The texts that can be read are the numerals. -/
theorem read_eq_ok_iff : b.read cs = .ok n ↔ b.Numeral cs n := by
  have hnil : ¬IsDecimal [] := fun h => h.1 rfl
  constructor
  · intro h
    cases cs with
    | nil => cases h
    | cons c cs =>
      by_cases hplus : c = '+'
      · subst hplus
        by_cases hne : cs = []
        · subst hne
          cases h
        · obtain ⟨hdecimal, hle, rfl⟩ := (read_plus hne).mp h
          exact .plus hdecimal hle
      by_cases hminus : c = '-'
      · subst hminus
        by_cases hne : cs = []
        · subst hne
          cases h
        · obtain ⟨hsigned, hdecimal, hle, rfl⟩ := (read_minus hne).mp h
          exact .minus hdecimal hle hsigned
      · obtain ⟨hdecimal, hle, rfl⟩ := (read_plain hplus hminus).mp h
        exact .plain hdecimal hle
  · rintro (⟨hdecimal, hle⟩ | ⟨hdecimal, hle⟩ | ⟨hdecimal, hle, hsigned⟩)
    · cases cs with
      | nil => exact absurd hdecimal hnil
      | cons c cs =>
        obtain ⟨hplus, hminus⟩ := hdecimal.head_ne
        exact (read_plain hplus hminus).mpr ⟨hdecimal, hle, rfl⟩
    · exact (read_plus hdecimal.1).mpr ⟨hdecimal, hle, rfl⟩
    · exact (read_minus hdecimal.1).mpr ⟨hsigned, hdecimal, hle, rfl⟩

end Read

end NumberBounds

end ClauseLearning
