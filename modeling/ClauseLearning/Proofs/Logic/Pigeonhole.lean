import ClauseLearning.Instances
import Mathlib.Algebra.BigOperators.Intervals
import Mathlib.Data.Finset.Card
import Mathlib.Data.Set.Function
import Mathlib.Data.Set.Prod
import Mathlib.Order.Interval.Set.Defs

/-!
# The pigeonhole formula

Each pair of a pigeon and a hole has a variable of its own, and these are all variables there are. An
assignment is thus a relation between pigeons and holes, and the formula says of it what its name
says: every pigeon has a hole, and no two share one. One pigeon is too many for that.

* `Pigeonhole.bijOn_sits`: the numbering of the pairs.
* `Pigeonhole.satisfies_placed`, `satisfies_separated`: what the two parts of the formula say.
* `Pigeonhole.not_satisfiable`: no assignment makes both true.
* `pigeonhole_encodes`: the formula as a whole.
-/

namespace ClauseLearning

namespace Pigeonhole

variable {n p q h : Nat} {l : Literal} {c : Clause} {a : Assignment} {v : Var}

/-- The assignment puts the pigeon into the hole. -/
def Sits (a : Assignment) (n p h : Nat) : Prop := a (sits n p h).id = true

/-! ## The numbering -/

/-- Pigeon and hole are quotient and remainder of the number, counted from zero. -/
theorem sits_inj {p' h' : Nat} (hh : h < n) (hh' : h' < n)
    (heq : (sits n p h).id = (sits n p' h').id) : p = p' ∧ h = h' := by
  have hn : 0 < n := Nat.zero_lt_of_lt hh
  have hsum : n * p + h = n * p' + h' := by
    rw [Nat.mul_comm n p, Nat.mul_comm n p']
    exact Nat.succ.inj heq
  have hdiv := congrArg (· / n) hsum
  have hmod := congrArg (· % n) hsum
  simp only [Nat.mul_add_div hn, Nat.div_eq_of_lt hh, Nat.div_eq_of_lt hh', Nat.add_zero] at hdiv
  simp only [Nat.mul_add_mod, Nat.mod_eq_of_lt hh, Nat.mod_eq_of_lt hh'] at hmod
  exact ⟨hdiv, hmod⟩

theorem sits_le (hp : p ≤ n) (hh : h < n) : (sits n p h).id ≤ n * (n + 1) := by
  calc p * n + (h + 1) ≤ n * n + n := Nat.add_le_add (Nat.mul_le_mul_right n hp) hh
    _ = n * (n + 1) := rfl

theorem exists_sits {k : Nat} (hk : 0 < k) (hle : k ≤ n * (n + 1)) :
    ∃ p ≤ n, ∃ h < n, (sits n p h).id = k := by
  have hlt : k - 1 < n * (n + 1) := by omega
  have hn : 0 < n := Nat.pos_of_mul_pos_right (Nat.zero_lt_of_lt hlt)
  have hdiv : (k - 1) / n < n + 1 := Nat.div_lt_of_lt_mul hlt
  refine ⟨(k - 1) / n, Nat.le_of_lt_succ hdiv, (k - 1) % n, Nat.mod_lt _ hn, ?_⟩
  show (k - 1) / n * n + (k - 1) % n + 1 = k
  rw [Nat.mul_comm, Nat.div_add_mod]
  exact Nat.sub_add_cancel hk

/-- The pairs of pigeons and holes are numbered from one, without gaps and without collisions. -/
theorem bijOn_sits (n : Nat) :
    Set.BijOn (fun x : Nat × Nat => (sits n x.1 x.2).id) (Set.Iic n ×ˢ Set.Iio n)
      (Set.Icc 1 (n * (n + 1))) := by
  refine ⟨?_, ?_, ?_⟩
  · rintro ⟨p, h⟩ ⟨hp, hh⟩
    exact ⟨Nat.succ_pos _, sits_le hp hh⟩
  · rintro ⟨p, h⟩ ⟨-, hh⟩ ⟨p', h'⟩ ⟨-, hh'⟩ heq
    obtain ⟨rfl, rfl⟩ := sits_inj hh hh' heq
    rfl
  · rintro k ⟨hk, hle⟩
    obtain ⟨p, hp, h, hh, rfl⟩ := exists_sits hk hle
    exact ⟨(p, h), ⟨hp, hh⟩, rfl⟩

/-! ## The clauses -/

theorem mem_somewhere : l ∈ somewhere n p ↔ ∃ h < n, l = ⟨sits n p h, true⟩ := by
  simp [somewhere, Clause.mem_ofList, eq_comm]

theorem mem_apart :
    l ∈ apart n p q h ↔ l = ⟨sits n p h, false⟩ ∨ l = ⟨sits n q h, false⟩ := by
  simp [apart, Clause.mem_ofList]

theorem mem_placed : c ∈ placed n ↔ ∃ p ≤ n, c = somewhere n p := by
  simp [placed, eq_comm]

theorem mem_separated :
    c ∈ separated n ↔ ∃ h < n, ∃ p q, p < q ∧ q ≤ n ∧ c = apart n p q h := by
  simp only [separated, List.mem_flatMap, List.mem_range, List.mem_map, List.mem_range'_1]
  constructor
  · rintro ⟨h, hh, p, hp, q, hq, rfl⟩
    exact ⟨h, hh, p, q, by omega, by omega, rfl⟩
  · rintro ⟨h, hh, p, q, hpq, hq, rfl⟩
    exact ⟨h, hh, p, by omega, q, by omega, rfl⟩

theorem length_placed (n : Nat) : (placed n).length = n + 1 := by
  simp [placed]

/-- Each pigeon is kept apart from the later ones. -/
theorem length_separated (n : Nat) : (separated n).length = n * (n * (n + 1) / 2) := by
  have hpairs : ((List.range (n + 1)).map fun p => n - p).sum = n * (n + 1) / 2 := by
    calc ((List.range (n + 1)).map fun p => n - p).sum
        = ∑ p ∈ Finset.range (n + 1), (n - p) := rfl
      _ = ∑ p ∈ Finset.range (n + 1), p := by
        rw [← Finset.sum_range_reflect (fun p => p)]
        exact Finset.sum_congr rfl fun p _ => by omega
      _ = n * (n + 1) / 2 := by rw [Finset.sum_range_id, Nat.add_sub_cancel, Nat.mul_comm]
  simp only [separated, List.length_flatMap, List.length_map, List.length_range', hpairs,
    List.map_const', List.length_range, List.sum_replicate_nat]

/-- The variables of the formula are those of the pairs. -/
theorem mem_vars : v ∈ (pigeonhole n).vars ↔ v.id ∈ Set.Icc 1 (n * (n + 1)) := by
  rw [Formula.mem_vars]
  constructor
  · rintro ⟨c, hc, l, hl, rfl⟩
    rcases List.mem_append.mp hc with hc | hc
    · obtain ⟨p, hp, rfl⟩ := mem_placed.mp hc
      obtain ⟨h, hh, rfl⟩ := mem_somewhere.mp hl
      exact ⟨Nat.succ_pos _, sits_le hp hh⟩
    · obtain ⟨h, hh, p, q, hpq, hq, rfl⟩ := mem_separated.mp hc
      rcases mem_apart.mp hl with rfl | rfl
      · exact ⟨Nat.succ_pos _, sits_le (by omega) hh⟩
      · exact ⟨Nat.succ_pos _, sits_le hq hh⟩
  · rintro ⟨hk, hle⟩
    obtain ⟨p, hp, h, hh, heq⟩ := exists_sits hk hle
    exact ⟨somewhere n p, List.mem_append_left _ (mem_placed.mpr ⟨p, hp, rfl⟩),
      ⟨sits n p h, true⟩, mem_somewhere.mpr ⟨h, hh, rfl⟩, Var.ext_id heq⟩

/-! ## What the clauses say -/

theorem holds_somewhere : (somewhere n p).Holds a ↔ ∃ h < n, Sits a n p h := by
  constructor
  · rintro ⟨l, hl, hla⟩
    obtain ⟨h, hh, rfl⟩ := mem_somewhere.mp hl
    exact ⟨h, hh, hla⟩
  · rintro ⟨h, hh, hs⟩
    exact ⟨_, mem_somewhere.mpr ⟨h, hh, rfl⟩, hs⟩

theorem holds_apart : (apart n p q h).Holds a ↔ ¬(Sits a n p h ∧ Sits a n q h) := by
  simp only [Clause.Holds, mem_apart, or_and_right, exists_or, exists_eq_left, Literal.Holds, Sits]
  rw [Bool.eq_false_iff, Bool.eq_false_iff]
  exact Decidable.not_and_iff_not_or_not.symm

theorem satisfies_placed : Satisfies a (placed n) ↔ ∀ p ≤ n, ∃ h < n, Sits a n p h := by
  constructor
  · intro ha p hp
    exact holds_somewhere.mp (ha _ (mem_placed.mpr ⟨p, hp, rfl⟩))
  · intro ha c hc
    obtain ⟨p, hp, rfl⟩ := mem_placed.mp hc
    exact holds_somewhere.mpr (ha p hp)

theorem satisfies_separated : Satisfies a (separated n) ↔
    ∀ p ≤ n, ∀ q ≤ n, p ≠ q → ∀ h < n, ¬(Sits a n p h ∧ Sits a n q h) := by
  constructor
  · intro ha p hp q hq hne h hh hs
    -- Each pair is kept apart once, the smaller pigeon first.
    rcases Nat.lt_or_gt_of_ne hne with hlt | hlt
    · exact holds_apart.mp (ha _ (mem_separated.mpr ⟨h, hh, p, q, hlt, hq, rfl⟩)) hs
    · exact holds_apart.mp (ha _ (mem_separated.mpr ⟨h, hh, q, p, hlt, hp, rfl⟩)) hs.symm
  · intro ha c hc
    obtain ⟨h, hh, p, q, hlt, hq, rfl⟩ := mem_separated.mp hc
    exact holds_apart.mpr (ha p (by omega) q hq (Nat.ne_of_lt hlt) h hh)

/-- More pigeons than holes: two of them share one. -/
theorem not_satisfiable (n : Nat) : ¬Satisfiable (pigeonhole n) := by
  rintro ⟨a, ha⟩
  have hplaced : ∀ p ≤ n, ∃ h < n, Sits a n p h :=
    satisfies_placed.mp fun c hc => ha c (List.mem_append_left _ hc)
  have hseparated := satisfies_separated.mp fun c hc => ha c (List.mem_append_right _ hc)
  choose! hole hlt hsits using hplaced
  obtain ⟨p, hp, q, hq, hne, heq⟩ :=
    Finset.exists_ne_map_eq_of_card_lt_of_maps_to (s := Finset.range (n + 1)) (t := Finset.range n)
      (f := hole) (by simp) fun p hp =>
        Finset.mem_coe.mpr (Finset.mem_range.mpr (hlt p (Finset.mem_range_succ_iff.mp hp)))
  rw [Finset.mem_range_succ_iff] at hp hq
  exact hseparated p hp q hq hne (hole p) (hlt p hp) ⟨hsits p hp, heq ▸ hsits q hq⟩

end Pigeonhole

open Pigeonhole in
/-- The variables of the formula for `n` holes number the pairs of a pigeon and a hole. Its clauses
are one for each pigeon, which says that the pigeon has a hole, and one for each hole and each pair
of pigeons, which says that the two do not share the hole. They contradict each other. -/
theorem pigeonhole_encodes (n : Nat) :
    Set.BijOn (fun x : Nat × Nat => (sits n x.1 x.2).id) (Set.Iic n ×ˢ Set.Iio n)
      (Set.Icc 1 (n * (n + 1))) ∧
    (∀ v, v ∈ (pigeonhole n).vars ↔ v.id ∈ Set.Icc 1 (n * (n + 1))) ∧
    pigeonhole n = placed n ++ separated n ∧
    ((placed n).length = n + 1 ∧ ∀ p ≤ n, ∃ c, (placed n)[p]? = some c ∧
      ∀ l, l ∈ c ↔ ∃ h < n, l = ⟨sits n p h, true⟩) ∧
    ((separated n).length = n * (n * (n + 1) / 2) ∧
      ∀ c, c ∈ separated n ↔ ∃ h < n, ∃ p q, p < q ∧ q ≤ n ∧
        ∀ l, l ∈ c ↔ l = ⟨sits n p h, false⟩ ∨ l = ⟨sits n q h, false⟩) ∧
    (∀ a, Satisfies a (placed n) ↔ ∀ p ≤ n, ∃ h < n, Sits a n p h) ∧
    (∀ a, Satisfies a (separated n) ↔
      ∀ p ≤ n, ∀ q ≤ n, p ≠ q → ∀ h < n, ¬(Sits a n p h ∧ Sits a n q h)) ∧
    ¬Satisfiable (pigeonhole n) := by
  refine ⟨bijOn_sits n, fun v => mem_vars, rfl, ⟨length_placed n, fun p hp => ?_⟩,
    ⟨length_separated n, fun c => ?_⟩, fun a => satisfies_placed, fun a => satisfies_separated,
    not_satisfiable n⟩
  · exact ⟨somewhere n p, by simp [placed, Nat.lt_succ_of_le hp], fun l => mem_somewhere⟩
  · have heq : ∀ h p q, c = apart n p q h ↔
        ∀ l, l ∈ c ↔ l = ⟨sits n p h, false⟩ ∨ l = ⟨sits n q h, false⟩ := by
      intro h p q
      simp only [← mem_apart]
      exact ⟨fun heq l => by rw [heq], Clause.ext_mem⟩
    simp only [mem_separated, heq]

end ClauseLearning
