import ClauseLearning.Proofs.Logic.Grammar
import Mathlib.Data.List.Forall2

/-!
# What the text of an expression tells

The text of an expression leaves out the parentheses within a chain of conjunctions and within a
chain of disjunctions, and no others that matter. So it tells the expression up to the grouping of
such chains.

A text is read from the left. An expression in parentheses, if it needs some, is told apart from
what follows it, and a chain is read operand by operand.

* `Expr.Reassociates`: equality up to the grouping of chains.
* `Expr.Reassociates.of_links`: it is enough to compare chains operand by operand.
* `Expr.Readable`: an expression can be told apart from what follows it.
* `Expr.text_append_inj`: an expression whose links are readable is told by its text.
* `Expr.text_eq_iff`: the same text, the same expression up to grouping.
-/

namespace ClauseLearning

namespace Expr

/-- Equal up to the grouping of directly nested conjunctions and of directly nested disjunctions. -/
inductive Reassociates : Expr → Expr → Prop
  | refl (e : Expr) : Reassociates e e
  | symm {a b : Expr} (h : Reassociates a b) : Reassociates b a
  | trans {a b c : Expr} (h : Reassociates a b) (h' : Reassociates b c) : Reassociates a c
  | andAssoc (a b c : Expr) : Reassociates (and (and a b) c) (and a (and b c))
  | orAssoc (a b c : Expr) : Reassociates (or (or a b) c) (or a (or b c))
  | and {a a' b b' : Expr} (ha : Reassociates a a') (hb : Reassociates b b') :
      Reassociates (and a b) (and a' b')
  | or {a a' b b' : Expr} (ha : Reassociates a a') (hb : Reassociates b b') :
      Reassociates (or a b) (or a' b')
  | not {a a' : Expr} (ha : Reassociates a a') : Reassociates (not a) (not a')

variable {a b c e f u v : Expr} {us vs : List Expr} {r r' : List Char}

/-- The grouping of chains does not matter for the truth value. -/
theorem Reassociates.eval_eq (h : Reassociates a b) (x : Assignment) : a.eval x = b.eval x := by
  induction h with
  | refl e => rfl
  | symm _ ih => exact ih.symm
  | trans _ _ ih ih' => exact ih.trans ih'
  | andAssoc a b c => exact Bool.and_assoc _ _ _
  | orAssoc a b c => exact Bool.or_assoc _ _ _
  | and _ _ iha ihb => rw [eval, eval, iha, ihb]
  | or _ _ iha ihb => rw [eval, eval, iha, ihb]
  | not _ ih => rw [eval, eval, ih]

/-- Conjunction or disjunction. -/
inductive Junction where
  | and
  | or

namespace Junction

/-- The one for the other. -/
def other : Junction → Junction
  | and => or
  | or => and

/-- Two operands joined. -/
def join : Junction → Expr → Expr → Expr
  | and => Expr.and
  | or => Expr.or

/-- What stands between two operands. -/
def sign : Junction → List Char
  | and => [' ', '∧', ' ']
  | or => [' ', '∨', ' ']

end Junction

variable {j k : Junction}

/-- The expression is a conjunction, or a disjunction. -/
def joins (e : Expr) : Junction → Bool
  | .and => e.isAnd
  | .or => e.isOr

/-- The links of a chain, from left to right. -/
def links (j : Junction) (e : Expr) : List Expr :=
  match j with
  | .and => e.conjuncts
  | .or => e.disjuncts

/-- The text, in parentheses if it is a conjunction or a disjunction. -/
def enclosed (e : Expr) : List Char := (enclose (e.isAnd || e.isOr) e.text).toList

/-- The text as an operand of a chain. -/
def asOperand (j : Junction) (e : Expr) : List Char := (enclose (e.joins j.other) e.text).toList

/-! ## Chains -/

/-- Induction over a chain: its joins, and its operands. -/
theorem joins_induct (j : Junction) {P : Expr → Prop}
    (join : ∀ a b, P a → P b → P (j.join a b)) (operand : ∀ e, e.joins j = false → P e) (e : Expr) :
    P e := by
  cases j with
  | and =>
    induction e with
    | and a b iha ihb => exact join a b iha ihb
    | or a b | not a | var n | top | bottom => exact operand _ rfl
  | or =>
    induction e with
    | or a b iha ihb => exact join a b iha ihb
    | and a b | not a | var n | top | bottom => exact operand _ rfl

theorem links_join (j : Junction) (a b : Expr) :
    links j (j.join a b) = links j a ++ links j b := by
  cases j <;> rfl

theorem links_of_joins_eq_false (h : e.joins j = false) : links j e = [e] := by
  cases j <;> cases e <;> first | rfl | cases h

theorem links_ne_nil (j : Junction) (e : Expr) : links j e ≠ [] := by
  induction e using joins_induct j with
  | join a b iha ihb => simp [links_join, iha]
  | operand e h => simp [links_of_joins_eq_false h]

theorem exists_join (h : e.joins j = true) : ∃ a b, e = j.join a b := by
  cases j <;> cases e <;> first | exact ⟨_, _, rfl⟩ | cases h

theorem joins_join (j : Junction) (a b : Expr) : (j.join a b).joins j.other = false := by
  cases j <;> rfl

/-- A chain has two links at least. -/
theorem exists_links (h : e.joins j = true) : ∃ u v us, links j e = u :: v :: us := by
  obtain ⟨a, b, rfl⟩ := exists_join h
  obtain ⟨u, us, hu⟩ := List.exists_cons_of_ne_nil (links_ne_nil j a)
  obtain ⟨v, vs, hv⟩ := List.exists_cons_of_ne_nil (links_ne_nil j b)
  rw [links_join, hu, hv]
  cases us with
  | nil => exact ⟨u, v, vs, rfl⟩
  | cons w us => exact ⟨u, w, us ++ v :: vs, rfl⟩

namespace Reassociates

theorem join (j : Junction) {a' b' : Expr} (ha : Reassociates a a') (hb : Reassociates b b') :
    Reassociates (j.join a b) (j.join a' b') := by
  cases j with
  | and => exact .and ha hb
  | or => exact .or ha hb

theorem assoc (j : Junction) (a b c : Expr) :
    Reassociates (j.join (j.join a b) c) (j.join a (j.join b c)) := by
  cases j with
  | and => exact .andAssoc a b c
  | or => exact .orAssoc a b c

end Reassociates

/-- A chain grouped to the right. -/
def nest (j : Junction) : Expr → List Expr → Expr
  | e, [] => e
  | e, u :: us => j.join e (nest j u us)

theorem nest_append (j : Junction) (u : Expr) (us : List Expr) (v : Expr) (vs : List Expr) :
    Reassociates (j.join (nest j u us) (nest j v vs)) (nest j u (us ++ v :: vs)) := by
  induction us generalizing u with
  | nil => exact .refl _
  | cons w us ih => exact .trans (.assoc j u _ _) (.join j (.refl u) (ih w))

/-- Every chain can be grouped to the right. -/
theorem reassociates_nest (h : links j e = u :: us) : Reassociates e (nest j u us) := by
  induction e using joins_induct j generalizing u us with
  | join a b iha ihb =>
    obtain ⟨v, vs, ha⟩ := List.exists_cons_of_ne_nil (links_ne_nil j a)
    obtain ⟨w, ws, hb⟩ := List.exists_cons_of_ne_nil (links_ne_nil j b)
    rw [links_join, ha, hb] at h
    cases h
    exact .trans (.join j (iha ha) (ihb hb)) (nest_append j u vs w ws)
  | operand e he =>
    rw [links_of_joins_eq_false he] at h
    cases h
    exact .refl e

theorem nest_congr (hu : Reassociates u v) (h : List.Forall₂ Reassociates us vs) :
    Reassociates (nest j u us) (nest j v vs) := by
  induction h generalizing u v with
  | nil => exact hu
  | cons hu' _ ih => exact .join j hu (ih hu')

/-- Chains are compared operand by operand. -/
theorem Reassociates.of_links
    (h : List.Forall₂ Reassociates (links j a) (links j b)) : Reassociates a b := by
  obtain ⟨u, us, ha⟩ := List.exists_cons_of_ne_nil (links_ne_nil j a)
  obtain ⟨v, vs, hb⟩ := List.exists_cons_of_ne_nil (links_ne_nil j b)
  rw [ha, hb] at h
  obtain ⟨hu, h⟩ := List.forall₂_cons.mp h
  exact .trans (reassociates_nest ha) (.trans (nest_congr hu h) (.symm (reassociates_nest hb)))

/-! ## The text of a chain -/

theorem toList_text_join (j : Junction) (a b : Expr) :
    (j.join a b).text.toList = asOperand j a ++ (j.sign ++ asOperand j b) := by
  cases j <;> simp [Junction.join, text, asOperand, joins, Junction.other, Junction.sign]

theorem asOperand_eq_text (h : e.joins j.other = false) : asOperand j e = e.text.toList := by
  simp [asOperand, h, enclose]

theorem asOperand_eq_enclosed (h : e.joins j = false) : asOperand j e = enclosed e := by
  cases j <;> simp_all [asOperand, enclosed, joins, Junction.other]

/-- The text of a chain is that of its operands, each behind a sign. -/
theorem sign_append_asOperand (j : Junction) (e : Expr) :
    j.sign ++ asOperand j e = (links j e).flatMap fun u => j.sign ++ enclosed u := by
  induction e using joins_induct j with
  | join a b iha ihb =>
    rw [asOperand_eq_text (joins_join j a b), toList_text_join, links_join, List.flatMap_append,
      ← iha, ← ihb, List.append_assoc]
  | operand e h => simp [asOperand_eq_enclosed h, links_of_joins_eq_false h]

@[simp] theorem enclosed_join (j : Junction) (a b : Expr) :
    enclosed (j.join a b) = '(' :: ((j.join a b).text.toList ++ [')']) := by
  cases j <;> simp [Junction.join, enclosed, isAnd, isOr, enclose]

@[simp] theorem enclosed_and (a b : Expr) :
    enclosed (and a b) = '(' :: ((and a b).text.toList ++ [')']) :=
  enclosed_join .and a b

@[simp] theorem enclosed_or (a b : Expr) :
    enclosed (or a b) = '(' :: ((or a b).text.toList ++ [')']) :=
  enclosed_join .or a b

@[simp] theorem enclosed_not (e : Expr) : enclosed (not e) = '¬' :: enclosed e := by
  simp [enclosed, isAnd, isOr, enclose, text]

@[simp] theorem enclosed_var (n : Nat) : enclosed (var n) = 'x' :: (toString n).toList := by
  simp [enclosed, isAnd, isOr, enclose, text]

@[simp] theorem enclosed_top : enclosed top = ['⊤'] := by
  simp [enclosed, isAnd, isOr, enclose, text]

@[simp] theorem enclosed_bottom : enclosed bottom = ['⊥'] := by
  simp [enclosed, isAnd, isOr, enclose, text]

/-! ## Reading a text -/

/-- No digit follows, so a variable number ends here. -/
def EndsNumber (r : List Char) : Prop := ∀ c ∈ r.head?, c.isDigit = false

/-- Nothing follows, or a closing parenthesis, so a chain ends here. -/
def EndsChain (r : List Char) : Prop := ∀ c ∈ r.head?, c = ')'

/-- With the parentheses it needs, the expression can be told apart from what follows it. -/
def Readable (e : Expr) : Prop :=
  ∀ ⦃f r r'⦄, EndsNumber r → EndsNumber r' → enclosed e ++ r = enclosed f ++ r' →
    Reassociates e f ∧ r = r'

theorem EndsChain.endsNumber (h : EndsChain r) : EndsNumber r := fun c hc => by
  rw [h c hc]
  rfl

/-- Neither a further link nor the end of a chain begins with a digit. -/
theorem EndsChain.endsNumber_append (h : EndsChain r) (j : Junction) (us : List Expr) :
    EndsNumber ((us.flatMap fun u => j.sign ++ enclosed u) ++ r) := by
  cases us with
  | nil => exact h.endsNumber
  | cons u us => cases j <;> simp [EndsNumber, Junction.sign]

theorem sign_append_ne (h : EndsChain r) (j : Junction) (s : List Char) : j.sign ++ s ≠ r := by
  rintro rfl
  cases j <;> simp [EndsChain, Junction.sign] at h

/-- Links that can be read are read one after the other. -/
theorem forall₂_of_links (hus : ∀ u ∈ us, Readable u) (hr : EndsChain r) (hr' : EndsChain r')
    (h : (us.flatMap fun u => j.sign ++ enclosed u) ++ r =
      (vs.flatMap fun v => j.sign ++ enclosed v) ++ r') :
    List.Forall₂ Reassociates us vs ∧ r = r' := by
  induction us generalizing vs with
  | nil =>
    cases vs with
    | nil => exact ⟨.nil, h⟩
    | cons v vs =>
      rw [List.flatMap_cons, List.append_assoc, List.append_assoc] at h
      exact absurd h.symm (sign_append_ne hr j _)
  | cons u us ih =>
    cases vs with
    | nil =>
      rw [List.flatMap_cons, List.append_assoc, List.append_assoc] at h
      exact absurd h (sign_append_ne hr' j _)
    | cons v vs =>
      simp only [List.flatMap_cons, List.append_assoc, List.append_cancel_left_eq] at h
      obtain ⟨hu, h⟩ := hus u List.mem_cons_self (hr.endsNumber_append j us)
        (hr'.endsNumber_append j vs) h
      obtain ⟨hus, heq⟩ := ih (fun u hu => hus u (List.mem_cons_of_mem _ hu)) h
      exact ⟨.cons hu hus, heq⟩

/-- The text of a chain begins with its first link, and a sign follows. -/
theorem exists_text_eq (h : e.joins j = true) :
    ∃ u ∈ links j e, ∃ s, e.text.toList = enclosed u ++ (j.sign ++ s) := by
  obtain ⟨u, v, us, hlinks⟩ := exists_links h
  obtain ⟨a, b, rfl⟩ := exists_join h
  have htext := sign_append_asOperand j (j.join a b)
  rw [asOperand_eq_text (joins_join j a b), hlinks, List.flatMap_cons, List.flatMap_cons,
    List.append_assoc, List.append_cancel_left_eq] at htext
  exact ⟨u, by simp [hlinks], _, by rw [htext, List.append_assoc]⟩

/-- A conjunction and a disjunction differ in the first sign. -/
theorem text_append_ne (he : ∀ u ∈ links j e, Readable u) (hj : e.joins j = true)
    (hj' : f.joins j.other = true) : e.text.toList ++ r ≠ f.text.toList ++ r' := by
  intro h
  obtain ⟨u, hu, s, hs⟩ := exists_text_eq hj
  obtain ⟨v, -, s', hs'⟩ := exists_text_eq hj'
  have hends : ∀ (k : Junction) (s : List Char), EndsNumber (k.sign ++ s) := by
    intro k s
    cases k <;> simp [EndsNumber, Junction.sign]
  rw [hs, hs', List.append_assoc, List.append_assoc, List.append_assoc, List.append_assoc] at h
  obtain ⟨-, hsign⟩ := he u hu (hends j _) (hends j.other _) h
  cases j <;> simp [Junction.sign, Junction.other] at hsign

/-- Two expressions are chains of one kind, each perhaps of one link, or they are a conjunction and
a disjunction. -/
theorem joins_cases (e f : Expr) :
    (∃ j : Junction, e.joins j.other = false ∧ f.joins j.other = false) ∨
      ∃ j : Junction, e.joins j = true ∧ f.joins j.other = true := by
  cases e <;> cases f <;> first
    | exact .inl ⟨.and, rfl, rfl⟩
    | exact .inl ⟨.or, rfl, rfl⟩
    | exact .inr ⟨.and, rfl, rfl⟩
    | exact .inr ⟨.or, rfl, rfl⟩

/-- An expression whose links can be read is told by its text, up to grouping. -/
theorem text_append_inj
    (he : ∀ j : Junction, e.joins j.other = false → ∀ u ∈ links j e, Readable u)
    (hr : EndsChain r) (hr' : EndsChain r') (h : e.text.toList ++ r = f.text.toList ++ r') :
    Reassociates e f ∧ r = r' := by
  rcases joins_cases e f with ⟨j, hej, hfj⟩ | ⟨j, hej, hfj⟩
  · have hsign := congrArg (j.sign ++ ·) h
    simp only [← asOperand_eq_text hej, ← asOperand_eq_text hfj] at hsign
    rw [← List.append_assoc, ← List.append_assoc, sign_append_asOperand,
      sign_append_asOperand] at hsign
    obtain ⟨hlinks, heq⟩ := forall₂_of_links (he j hej) hr hr' hsign
    exact ⟨.of_links hlinks, heq⟩
  · obtain ⟨a, b, rfl⟩ := exists_join hej
    exact absurd h (text_append_ne (he j (joins_join j a b)) hej hfj)

/-- A number ends where no digit follows. -/
theorem number_append_inj {m n : Nat} (hr : EndsNumber r) (hr' : EndsNumber r')
    (h : (toString m).toList ++ r = (toString n).toList ++ r') : m = n ∧ r = r' := by
  have hdigits : ∀ n : Nat, (toString n).toList = Nat.toDigits 10 n := fun n => by
    rw [Nat.toString_eq_repr, Nat.repr_eq_ofList_toDigits, String.toList_ofList]
  have htake : ∀ (n : Nat) {r : List Char}, EndsNumber r →
      (Nat.toDigits 10 n ++ r).takeWhile Char.isDigit = Nat.toDigits 10 n := by
    intro n r hr
    rw [List.takeWhile_append_of_pos fun c hc =>
      Nat.isDigit_of_mem_toDigits (by decide) (by decide) hc]
    cases r with
    | nil => simp
    | cons c r => simp [hr c rfl]
  rw [hdigits, hdigits] at h
  have heq : Nat.toDigits 10 m = Nat.toDigits 10 n := by
    rw [← htake m hr, h, htake n hr']
  rw [heq, List.append_cancel_left_eq] at h
  refine ⟨?_, h⟩
  rw [← Nat.ofDigitChars_toDigits (b := 10) (n := m) (by decide) (by decide), heq,
    Nat.ofDigitChars_toDigits (by decide) (by decide)]

/-- A chain whose links can be read can be read in parentheses. -/
theorem readable_join (j : Junction) (h : ∀ u ∈ links j (j.join a b), Readable u) :
    Readable (j.join a b) := by
  intro f r r' hr hr' heq
  have hlinks : ∀ k : Junction, (j.join a b).joins k.other = false →
      ∀ u ∈ links k (j.join a b), Readable u := by
    intro k hk
    cases j <;> cases k <;> first | exact h | cases hk
  -- Behind the text of the chain comes the closing parenthesis.
  have hclose : ∀ r, EndsChain (')' :: r) := by simp [EndsChain]
  have hinner : ∀ k c d, f = Junction.join k c d → Reassociates (j.join a b) f ∧ r = r' := by
    rintro k c d rfl
    rw [enclosed_join, enclosed_join, List.cons_append, List.cons_append, List.append_assoc,
      List.append_assoc] at heq
    obtain ⟨hab, hrest⟩ :=
      text_append_inj hlinks (hclose r) (hclose r') (List.cons.inj heq).2
    exact ⟨hab, (List.cons.inj hrest).2⟩
  cases f with
  | and c d => exact hinner .and c d rfl
  | or c d => exact hinner .or c d rfl
  | not c | var n | top | bottom => simp at heq

theorem readable_not (h : Readable a) : Readable (not a) := by
  intro f r r' hr hr' heq
  cases f with
  | not c =>
    rw [enclosed_not, enclosed_not] at heq
    obtain ⟨hac, hrest⟩ := h hr hr' (List.cons.inj heq).2
    exact ⟨.not hac, hrest⟩
  | and c d | or c d | var n | top | bottom => simp at heq

theorem readable_var (n : Nat) : Readable (var n) := by
  intro f r r' hr hr' heq
  cases f with
  | var m =>
    rw [enclosed_var, enclosed_var] at heq
    obtain ⟨rfl, hrest⟩ := number_append_inj hr hr' (List.cons.inj heq).2
    exact ⟨.refl _, hrest⟩
  | and c d | or c d | not c | top | bottom => simp at heq

theorem readable_top : Readable top := by
  intro f r r' _ _ heq
  cases f with
  | top => exact ⟨.refl _, List.append_cancel_left heq⟩
  | and c d | or c d | not c | var n | bottom => simp at heq

theorem readable_bottom : Readable bottom := by
  intro f r r' _ _ heq
  cases f with
  | bottom => exact ⟨.refl _, List.append_cancel_left heq⟩
  | and c d | or c d | not c | var n | top => simp at heq

/-- No expression is a conjunction and a disjunction, so each is a single link of some chain. -/
theorem readable_of_links (h : ∀ j, ∀ u ∈ links j e, Readable u) : Readable e := by
  have hsingle : ∃ j, e.joins j = false := by
    cases e <;> first | exact ⟨.and, rfl⟩ | exact ⟨.or, rfl⟩
  obtain ⟨j, hj⟩ := hsingle
  exact h j e (by simp [links_of_joins_eq_false hj])

/-- The links of an expression can be read: of a chain of the other kind, which is a single link, as
the links of that chain can. -/
theorem readable_of_mem_links (e : Expr) : ∀ j, ∀ u ∈ links j e, Readable u := by
  have single : ∀ {e : Expr} {j : Junction}, e.joins j = false → Readable e →
      ∀ u ∈ links j e, Readable u := by
    intro e j hj he u hu
    rw [links_of_joins_eq_false hj, List.mem_singleton] at hu
    exact hu ▸ he
  have chain : ∀ {a b : Expr} (j : Junction), (∀ u ∈ links j a, Readable u) →
      (∀ u ∈ links j b, Readable u) → ∀ k, ∀ u ∈ links k (j.join a b), Readable u := by
    intro a b j ha hb k
    have hj : ∀ u ∈ links j (j.join a b), Readable u := by
      rw [links_join]
      exact List.forall_mem_append.mpr ⟨ha, hb⟩
    by_cases hk : (j.join a b).joins k = true
    · cases j <;> cases k <;> first | exact hj | cases hk
    · exact single (Bool.eq_false_iff.mpr hk) (readable_join j hj)
  induction e with
  | and a b iha ihb => exact chain .and (iha .and) (ihb .and)
  | or a b iha ihb => exact chain .or (iha .or) (ihb .or)
  | not a ih => exact fun j => single (by cases j <;> rfl) (readable_not (readable_of_links ih))
  | var n => exact fun j => single (by cases j <;> rfl) (readable_var n)
  | top => exact fun j => single (by cases j <;> rfl) readable_top
  | bottom => exact fun j => single (by cases j <;> rfl) readable_bottom

/-- The grouping of chains leaves no trace in the text, nor in the parentheses around it. -/
theorem Reassociates.text_eq (h : Reassociates a b) :
    a.text = b.text ∧ a.isAnd = b.isAnd ∧ a.isOr = b.isOr := by
  induction h with
  | refl e => exact ⟨rfl, rfl, rfl⟩
  | symm _ ih => exact ⟨ih.1.symm, ih.2.1.symm, ih.2.2.symm⟩
  | trans _ _ ih ih' => exact ⟨ih.1.trans ih'.1, ih.2.1.trans ih'.2.1, ih.2.2.trans ih'.2.2⟩
  | andAssoc a b c => exact ⟨by simp [text, isOr, enclose, String.append_assoc], rfl, rfl⟩
  | orAssoc a b c => exact ⟨by simp [text, isAnd, enclose, String.append_assoc], rfl, rfl⟩
  | and _ _ iha ihb =>
    exact ⟨by rw [text, text, iha.1, iha.2.2, ihb.1, ihb.2.2], rfl, rfl⟩
  | or _ _ iha ihb =>
    exact ⟨by rw [text, text, iha.1, iha.2.1, ihb.1, ihb.2.1], rfl, rfl⟩
  | not _ ih =>
    exact ⟨by rw [text, text, ih.1, ih.2.1, ih.2.2], rfl, rfl⟩

/-- An expression is told by its text, up to the grouping of chains. -/
theorem Reassociates.of_text_eq (h : a.text = b.text) : Reassociates a b := by
  have hends : EndsChain [] := by simp [EndsChain]
  have hchars : a.text.toList ++ [] = b.text.toList ++ [] := by rw [h]
  exact (text_append_inj (fun j _ => readable_of_mem_links a j) hends hends hchars).1

/-- Two expressions have the same text exactly if they are equal up to the grouping of chains. Then
they have the same truth value under every assignment. -/
theorem text_eq_iff (a b : Expr) :
    (a.text = b.text ↔ Reassociates a b) ∧
      (a.text = b.text → ∀ x : Assignment, a.eval x = b.eval x) :=
  ⟨⟨Reassociates.of_text_eq, fun h => h.text_eq.1⟩, fun h => (Reassociates.of_text_eq h).eval_eq⟩

/-- Both chains of `x1 ∧ x2 ∧ ¬(x3 ∨ x4 ∨ x5)` can be grouped either way. -/
theorem eval_eq_of_regrouped :
    let a := and (and (var 1) (var 2)) (not (or (or (var 3) (var 4)) (var 5)))
    let b := and (var 1) (and (var 2) (not (or (var 3) (or (var 4) (var 5)))))
    a.text = b.text ∧ ∀ x : Assignment, a.eval x = b.eval x := by
  intro a b
  have h : a.text = b.text := by decide
  exact ⟨h, (text_eq_iff a b).2 h⟩

end Expr

end ClauseLearning
