import ClauseLearning.Proofs.Engine.Growth

/-!
# No learned clause is redundant

The engine does not compare a learned clause with the store. It need not: the clauses of the store
have all been propagated on the level below the conflict, while the learned clause would have forced
a literal there (`Learns.not_subset`). So the store stays irredundant (`ClauseStore.Irredundant`) and
holds no learned clause twice.

* `Irredundant.ofFormula`, `Irredundant.push`: how such a store begins and grows.
* `Session.irredundant_next`: one event keeps it.
* `Session.learned_irredundant`: it holds at any time of any session.
-/

namespace ClauseLearning

namespace ClauseStore

variable {store : ClauseStore} {f : Formula} {c d : Clause}

/-- No learned clause contains a clause that stands before it in the store. -/
structure Irredundant (store : ClauseStore) (f : Formula) : Prop where
  formula : ∀ c ∈ f, ∀ d ∈ store.learned, ¬c ⊆ d
  learned : store.learned.Pairwise fun c d => ¬c ⊆ d

namespace Irredundant

theorem ofFormula (f : Formula) : (ClauseStore.ofFormula f).Irredundant f := by
  have hlearned : (ClauseStore.ofFormula f).learned = [] := by
    simp [ClauseStore.learned, ClauseStore.ofFormula]
  constructor <;> rw [hlearned]
  · simp
  · exact .nil

/-- A clause that contains none of the store may be appended. -/
theorem push (h : store.Irredundant f) (hg : store.GrownFrom f)
    (hd : ∀ c ∈ store.clauses, ¬c ⊆ d) : (store.push d).Irredundant f := by
  constructor <;> rw [hg.learned_push]
  · intro c hc d' hd'
    rcases List.mem_append.mp hd' with hd' | hd'
    · exact h.formula c hc d' hd'
    · obtain rfl := List.mem_singleton.mp hd'
      refine hd c (Array.mem_toList_iff.mp ?_)
      rw [hg.clauses]
      exact List.mem_append_left _ hc
  · refine List.pairwise_append.mpr ⟨h.learned, List.pairwise_singleton _ _, ?_⟩
    intro c hc d' hd'
    obtain rfl := List.mem_singleton.mp hd'
    exact hd c (hg.mem_clauses_of_learned hc)

/-- A clause contains itself, so it is not learned twice or learned from a formula that has it. -/
theorem nodup (h : store.Irredundant f) : store.learned.Nodup := by
  refine h.learned.imp fun {c d} hcd => ?_
  rintro rfl
  exact hcd c.subset_refl

theorem not_mem (h : store.Irredundant f) (hd : d ∈ store.learned) : d ∉ f :=
  fun hf => h.formula d hf d hd d.subset_refl

end Irredundant

end ClauseStore

namespace Session

variable {σ : Type} {f : Formula} {config : Config} {policy : Policy σ} {memory : σ}
  {x y : Session σ}

theorem irredundant_next (h : x.Invariant f config policy) (hx : x.engine.store.Irredundant f)
    (hn : Next x y) : y.engine.store.Irredundant f := by
  rcases store_next h hn with heq | ⟨d, heq, hd⟩
  · rwa [heq]
  · rw [heq]
    exact hx.push h.sound.store hd

/-- At any time of any session, whatever the settings, the policy and the number of runs, a clause
is learned only if no clause of the store is a subset of it. So the clauses learned so far, which
stand behind those of the formula in the order they were learned, contain no clause of the formula
and none that was learned before. They are distinct, and none of them is in the formula. -/
theorem learned_irredundant (h : Reached f config policy memory x) :
    (∀ y, Next x y → y.engine.store = x.engine.store ∨
      ∃ d, y.engine.store = x.engine.store.push d ∧ ∀ c ∈ x.engine.store.clauses, ¬c ⊆ d) ∧
      x.engine.store.clauses.toList = f ++ x.engine.store.learned ∧
      x.engine.store.Irredundant f ∧
      x.engine.store.learned.Nodup ∧ ∀ d ∈ x.engine.store.learned, d ∉ f := by
  have hirredundant : x.engine.store.Irredundant f := by
    refine (h.induct (P := fun x => x.Invariant f config policy ∧ x.engine.store.Irredundant f)
      ⟨.withPolicy f config policy memory, .ofFormula f⟩ ?_).2
    exact fun ⟨hy, hstore⟩ hn => ⟨hy.next hn, irredundant_next hy hstore hn⟩
  exact ⟨fun y hn => store_next h.invariant hn, h.invariant.sound.store.clauses,
    hirredundant, hirredundant.nodup, fun d => hirredundant.not_mem⟩

/-- All clauses of three literals over `x1`, `x2` and `x3`. -/
def allTriples : Formula :=
  [true, false].flatMap fun a => [true, false].flatMap fun b => [true, false].map fun c =>
    .ofList [⟨⟨1, by decide⟩, a⟩, ⟨⟨2, by decide⟩, b⟩, ⟨⟨3, by decide⟩, c⟩]

/-- Their refutation learns three clauses. The second is a subset of the first, but not the other way
around. -/
theorem allTriples_learned :
    (Engine.ofFormula allTriples {}).solve.2.store.learned =
        [.ofList [⟨⟨1, by decide⟩, false⟩, ⟨⟨2, by decide⟩, false⟩],
          .ofLiteral ⟨⟨1, by decide⟩, false⟩,
          .ofList [⟨⟨1, by decide⟩, true⟩, ⟨⟨2, by decide⟩, false⟩]] ∧
      (Engine.ofFormula allTriples {}).solve.2.store.learned.Pairwise fun c d => ¬c ⊆ d := by
  have hreached : Reached allTriples {} (Phase.policy .positive) false
      ⟨(Engine.ofFormula allTriples {}).solve.2, none⟩ := reaches_solve (by decide +kernel)
  obtain ⟨-, -, hirredundant, -⟩ := learned_irredundant hreached
  exact ⟨by decide +kernel, hirredundant.learned⟩

end Session

end ClauseLearning
