import ClauseLearning.Proofs.Engine.Invariant

/-!
# Conflicts of a run

The levels below a conflict are fixpoints: they settle every clause, also the clauses learned after
they were filled. So each conflict above the root level involves several literals of its level, the
resolution ends at a clause with one of them, and no level below the one to return to would let this
clause force a literal.

* `Session.conflict_analyzed`: what every such conflict teaches.
-/

namespace ClauseLearning

namespace Session

variable {σ : Type} {f : Formula} {config : Config} {policy : Policy σ} {memory : σ} {e : Engine σ}
  {r : ClauseRef}

/-- Each conflict above the root level is a falsified clause with several literals of its level. Its
analysis never runs out of implied literals: it learns a falsified clause that is not empty, is no
tautology and has one literal of the level. The level to return to is the lowest one at which all
literals of this clause are false but one, which is unassigned. -/
theorem conflict_analyzed (h : Reached f config policy memory ⟨e, some (.conflict r)⟩)
    (hlevel : 0 < e.trail.level) :
    ∃ c a, e.store.get? r = some c ∧ e.trail.Falsifies c ∧
      2 ≤ (Analysis.atLevel e.trail c).length ∧
      analyze e.store e.trail e.config.resolution c = .ok a ∧ a.exit = .finished ∧
      a.learned.isEmpty = false ∧ a.learned.isTautology = false ∧ e.trail.Falsifies a.learned ∧
      (Analysis.atLevel e.trail a.learned).length = 1 ∧
      IsLeast {j | j < e.trail.level ∧ ∃ l, (e.trail.backtrack j).Forces a.learned l}
        a.backjump := by
  obtain ⟨hrunning, ⟨c, hc, hf⟩, -⟩ := h.invariant
  have hw := hrunning.wellFormed
  have hbelow : e.trail.level - 1 < e.trail.level := Nat.sub_one_lt (Nat.ne_of_gt hlevel)
  have hsettles := hrunning.settled _ hbelow c (ClauseStore.mem_clauses_iff.mpr ⟨r, hc⟩)
  obtain ⟨d, l, k, hanalyze, -, hreturns⟩ := analyze_spec hw hrunning.justified
    e.config.resolution hlevel (Engine.conflicting hrunning hc hf hlevel)
  have hproper : d.Proper := fun m hm => hreturns.negate_not_mem hw hm
  refine ⟨c, _, hc, hf, Analysis.one_lt_length_atLevel hw hlevel hf hsettles, hanalyze, rfl, ?_,
    hproper.isTautology_eq_false, hreturns.falsified, hreturns.length_atLevel, hreturns.isLeast hw⟩
  simpa [Clause.isEmpty] using Array.ne_empty_of_mem hreturns.mem

/-- The first decision on `notFirst` ends in a conflict. The clause learned from it forces a literal
at the root level already. -/
theorem notFirst_analyzed :
    ((notFirstAfter 4).state = some (.conflict ⟨1⟩) ∧ (notFirstAfter 4).engine.trail.level = 1) ∧
    ∃ c a, (notFirstAfter 4).engine.store.get? ⟨1⟩ = some c ∧
      analyze (notFirstAfter 4).engine.store (notFirstAfter 4).engine.trail
        (notFirstAfter 4).engine.config.resolution c = .ok a ∧
      a.learned.isEmpty = false ∧
      ∃ l, ((notFirstAfter 4).engine.trail.backtrack 0).Forces a.learned l := by
  have hstate : (notFirstAfter 4).state = some (.conflict ⟨1⟩) := by decide +kernel
  have hlevel : (notFirstAfter 4).engine.trail.level = 1 := by decide +kernel
  obtain ⟨c, a, hc, -, -, ha, -, hne, -, -, -, hleast⟩ :=
    conflict_analyzed (reached_notFirstAfter hstate) (by omega)
  refine ⟨⟨hstate, hlevel⟩, c, a, hc, ha, hne, ?_⟩
  have hzero : a.backjump = 0 := by
    have := hleast.1.1
    omega
  exact hzero ▸ hleast.1.2

end Session

end ClauseLearning
