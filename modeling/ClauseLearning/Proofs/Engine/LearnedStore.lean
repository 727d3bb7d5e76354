import ClauseLearning.Proofs.Logic.Clauses
import ClauseLearning.Proofs.Propagation.Scan
import Mathlib.Data.Fintype.BigOperators
import Mathlib.Data.Fintype.Option

/-!
# What the store of an engine holds

A store begins with the clauses of its formula; every other clause follows from them, is over their
variables, and was new when it was learned (`ClauseStore.GrownFrom`).

* `GrownFrom.ofFormula`, `GrownFrom.push`: how such a store begins and grows.
* `GrownFrom.holds`: a model of the formula is a model of the store.
* `GrownFrom.length_learned_le`: there are at most `3 ^ n` learned clauses over `n` variables.
-/

namespace ClauseLearning

namespace Clause

/-! ## Clauses as sets -/

/-- Every literal of the one clause stands in the other. -/
instance : HasSubset Clause := ⟨fun c d => ∀ l ∈ c, l ∈ d⟩

instance (c d : Clause) : Decidable (c ⊆ d) :=
  inferInstanceAs (Decidable (∀ l ∈ c.literals, l ∈ d.literals))

theorem subset_refl (c : Clause) : c ⊆ c := fun _ hl => hl

/-! ## Counting clauses -/

/-- The clause has no variable twice. -/
def Proper (c : Clause) : Prop := ∀ l ∈ c, l.negate ∉ c

theorem Proper.isTautology_eq_false {c : Clause} (hc : c.Proper) : c.isTautology = false := by
  rw [← Bool.not_eq_true, isTautology_iff]
  rintro ⟨l, hl, hneg⟩
  exact hc l hl hneg

/-- How each of some variables occurs in the clause: positive, negative or not at all. -/
def pattern (vs : List Var) (c : Clause) (i : Fin vs.length) : Option Bool :=
  if ⟨vs[i], true⟩ ∈ c.literals then some true
  else if ⟨vs[i], false⟩ ∈ c.literals then some false
  else none

variable {vs : List Var} {c d : Clause}

/-- A literal of a proper clause can be read off the pattern. -/
theorem mem_iff_pattern (hc : c.Proper) (i : Fin vs.length) (b : Bool) :
    (⟨vs[i], b⟩ : Literal) ∈ c ↔ c.pattern vs i = some b := by
  have hneg : (⟨vs[i], true⟩ : Literal) ∈ c → (⟨vs[i], false⟩ : Literal) ∉ c := fun h => hc _ h
  unfold pattern
  by_cases ht : (⟨vs[i], true⟩ : Literal) ∈ c.literals
  · rw [if_pos ht]
    cases b with
    | true => simpa [mem_def] using ht
    | false => simpa using hneg ht
  · rw [if_neg ht]
    by_cases hf : (⟨vs[i], false⟩ : Literal) ∈ c.literals
    · rw [if_pos hf]
      cases b with
      | true => simpa [mem_def] using ht
      | false => simpa [mem_def] using hf
    · rw [if_neg hf]
      cases b with
      | true => simpa [mem_def] using ht
      | false => simpa [mem_def] using hf

theorem eq_of_pattern (hc : c.Proper) (hd : d.Proper) (hcv : ∀ l ∈ c, l.var ∈ vs)
    (hdv : ∀ l ∈ d, l.var ∈ vs) (h : c.pattern vs = d.pattern vs) : c = d := by
  have key : ∀ l : Literal, l.var ∈ vs → (l ∈ c ↔ l ∈ d) := by
    intro l hv
    obtain ⟨i, hi⟩ := List.mem_iff_get.mp hv
    have hl : l = ⟨vs[i], l.positive⟩ := by
      cases l
      exact congrArg (Literal.mk · _) hi.symm
    rw [hl, mem_iff_pattern hc, mem_iff_pattern hd, h]
  exact ext_mem fun l => ⟨fun hl => (key l (hcv l hl)).mp hl, fun hl => (key l (hdv l hl)).mpr hl⟩

/-- There are at most `3 ^ n` proper clauses over `n` variables. -/
theorem length_le_three_pow {cs : List Clause} (hnodup : cs.Nodup) (hproper : ∀ c ∈ cs, c.Proper)
    (hvars : ∀ c ∈ cs, ∀ l ∈ c, l.var ∈ vs) : cs.length ≤ 3 ^ vs.length := by
  have hmap : (cs.map (pattern vs)).Nodup :=
    hnodup.map_on fun c hc d hd h =>
      eq_of_pattern (hproper c hc) (hproper d hd) (hvars c hc) (hvars d hd) h
  calc cs.length = (cs.map (pattern vs)).length := (List.length_map _).symm
    _ ≤ Fintype.card (Fin vs.length → Option Bool) := hmap.length_le_card
    _ = 3 ^ vs.length := by simp

end Clause

/-! ## Grown stores -/

namespace ClauseStore

variable {store : ClauseStore} {f : Formula} {c : Clause} {a : Assignment}

/-- The store holds the clauses of the formula, then clauses that follow from them. Each of these is
over the variables of the formula, is no tautology and stands in the store once. -/
structure GrownFrom (store : ClauseStore) (f : Formula) : Prop where
  formulaSize : store.formulaSize = f.length
  clauses : store.clauses.toList = f ++ store.learned
  entailed : ∀ c ∈ store.learned, Entails f c
  var_mem : ∀ c ∈ store.learned, ∀ l ∈ c, l.var ∈ f.vars
  proper : ∀ c ∈ store.learned, c.Proper
  nodup : store.learned.Nodup

namespace GrownFrom

theorem ofFormula (f : Formula) : (ClauseStore.ofFormula f).GrownFrom f := by
  have hlearned : (ClauseStore.ofFormula f).learned = [] := by
    simp [learned, ClauseStore.ofFormula]
  refine ⟨rfl, ?_, ?_, ?_, ?_, ?_⟩ <;> rw [hlearned]
  · simp [ClauseStore.ofFormula]
  · simp
  · simp
  · simp
  · exact List.nodup_nil

/-- The clauses of the formula are still there. -/
theorem formulaSize_le (h : store.GrownFrom f) : store.formulaSize ≤ store.size := by
  rw [size, ← Array.length_toList, h.clauses, h.formulaSize, List.length_append]
  exact Nat.le_add_right _ _

theorem learned_push (h : store.GrownFrom f) (c : Clause) :
    (store.push c).learned = store.learned ++ [c] := by
  have hle : store.formulaSize ≤ store.clauses.toList.length := h.formulaSize_le
  simp only [learned, push, Array.toList_push, List.drop_append_of_le_length hle]

theorem mem_clauses_of_learned (h : store.GrownFrom f) (hc : c ∈ store.learned) :
    c ∈ store.clauses := by
  rw [← Array.mem_toList_iff, h.clauses]
  exact List.mem_append_right f hc

/-- A new clause that follows from the store may be appended. -/
theorem push (h : store.GrownFrom f) (hentails : Entails f c) (hover : ∀ l ∈ c, l.var ∈ f.vars)
    (hproper : c.Proper) (hnew : c ∉ store.clauses) : (store.push c).GrownFrom f := by
  have hmem : ∀ {d}, d ∈ store.learned ++ [c] → d ∈ store.learned ∨ d = c := by simp
  refine ⟨h.formulaSize, ?_, ?_, ?_, ?_, ?_⟩ <;> rw [h.learned_push]
  · rw [ClauseStore.push, Array.toList_push, h.clauses, List.append_assoc]
  · intro d hd
    rcases hmem hd with hd | rfl
    · exact h.entailed d hd
    · exact hentails
  · intro d hd
    rcases hmem hd with hd | rfl
    · exact h.var_mem d hd
    · exact hover
  · intro d hd
    rcases hmem hd with hd | rfl
    · exact h.proper d hd
    · exact hproper
  · rw [← List.concat_eq_append]
    exact .concat (fun hc => hnew (h.mem_clauses_of_learned hc)) h.nodup

/-- A model of the formula is a model of the store. -/
theorem satisfies (h : store.GrownFrom f) (ha : Satisfies a f) :
    Satisfies a store.clauses.toList := by
  intro c hc
  rw [h.clauses] at hc
  rcases List.mem_append.mp hc with hc | hc
  · exact ha c hc
  · exact h.entailed c hc a ha

/-- What follows from the store follows from the formula. -/
theorem entails (h : store.GrownFrom f) (hc : Entails store.clauses.toList c) : Entails f c :=
  fun a ha => hc a (h.satisfies ha)

theorem overVars (h : store.GrownFrom f) : store.Over f.vars.toArray := by
  intro c hc l hl
  rw [← Array.mem_toList_iff, h.clauses] at hc
  rw [List.mem_toArray]
  rcases List.mem_append.mp hc with hc | hc
  · exact Formula.mem_vars.mpr ⟨c, hc, l, hl, rfl⟩
  · exact h.var_mem c hc l hl

theorem length_learned_le (h : store.GrownFrom f) : store.learned.length ≤ 3 ^ f.vars.length :=
  Clause.length_le_three_pow h.nodup h.proper h.var_mem

end GrownFrom

end ClauseStore

end ClauseLearning
