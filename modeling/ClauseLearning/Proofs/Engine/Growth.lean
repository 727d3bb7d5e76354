import ClauseLearning.Proofs.Engine.Invariant

/-!
# How the store grows

In the course of a session the store of an engine changes in one way only: a clause that follows
from the formula is appended.

* `Move.store`, `Session.store_next`: what one transition and one event do to the store.
* `Session.store_reaches`: what a whole session does.
-/

namespace ClauseLearning

variable {σ : Type} {f : Formula} {config : Config} {policy : Policy σ} {memory : σ}

/-- A transition leaves the store as it is, or appends one clause, which contains none of the store.
-/
theorem Engine.Move.store {e e' : Engine σ} {s s' : State} (h : e.Running f config policy)
    (hm : e.Move s e' s') : e'.store = e.store ∨
      ∃ d, e'.store = e.store.push d ∧ ∀ c ∈ e.store.clauses, ¬c ⊆ d := by
  cases hm with
  | propagate => exact .inl rfl
  | stop => exact .inl rfl
  | fault => exact .inl rfl
  | decide => exact .inl rfl
  | refute => exact .inl rfl
  | @learn r c d l k e' hc hf hl =>
    exact .inr ⟨d, by rw [hl.engine], fun b hb => hl.not_subset h hb⟩

namespace Session

variable {x y : Session σ}

theorem Invariant.sound (h : x.Invariant f config policy) : x.engine.Sound f config policy := by
  obtain ⟨e, _ | s⟩ := x
  · exact h
  · exact h.1.toSound

/-- So does an event. -/
theorem store_next (h : x.Invariant f config policy) (hn : Next x y) :
    y.engine.store = x.engine.store ∨
      ∃ d, y.engine.store = x.engine.store.push d ∧ ∀ c ∈ x.engine.store.clauses, ¬c ⊆ d := by
  cases hn with
  | start hr =>
    obtain ⟨w, -, rfl⟩ := h.sound.restart_eq hr
    exact .inl rfl
  | step hs hstep => exact (h.1.move h.2 hs hstep).store h.1
  | @finish e s hs => cases s <;> exact .inl rfl

/-- The clauses before an event are a prefix of those after it. -/
theorem clauses_next (h : x.Invariant f config policy) (hn : Next x y) :
    x.engine.store.clauses.toList <+: y.engine.store.clauses.toList := by
  rcases store_next h hn with heq | ⟨d, heq, -⟩
  · exact heq ▸ List.prefix_rfl
  · rw [heq, ClauseStore.push, Array.toList_push]
    exact List.prefix_append _ _

/-- The clauses at one time are a prefix of those at any later time. -/
theorem store_reaches (h : x.Invariant f config policy) (hxy : Reaches x y) :
    x.engine.store.clauses.toList <+: y.engine.store.clauses.toList := by
  have key : y.Invariant f config policy ∧
      x.engine.store.clauses.toList <+: y.engine.store.clauses.toList := by
    induction hxy with
    | refl => exact ⟨h, List.prefix_rfl⟩
    | tail _ hn ih => exact ⟨ih.1.next hn, ih.2.trans (clauses_next ih.1 hn)⟩
  exact key.2

/-- At any time the store holds the clauses of the formula and then learned clauses, which follow
from the formula and are over its variables. Later the same clauses stand under the same references.
-/
theorem store_grows (hx : Reached f config policy memory x) (hxy : Reaches x y) :
    x.engine.store.clauses.toList = f ++ x.engine.store.learned ∧
      (∀ c ∈ x.engine.store.learned, Entails f c ∧ ∀ l ∈ c, l.var ∈ f.vars) ∧
      x.engine.store.clauses.toList <+: y.engine.store.clauses.toList ∧
      ∀ r c, x.engine.store.get? r = some c → y.engine.store.get? r = some c := by
  have hstore := hx.invariant.sound.store
  have hprefix := store_reaches hx.invariant hxy
  refine ⟨hstore.clauses, fun c hc => ⟨hstore.entailed c hc, hstore.var_mem c hc⟩, hprefix, ?_⟩
  intro r c hc
  rw [ClauseStore.get?, ← Array.getElem?_toList] at hc ⊢
  obtain ⟨hlt, -⟩ := List.getElem?_eq_some_iff.mp hc
  obtain ⟨rest, hrest⟩ := hprefix
  rw [← hrest, List.getElem?_append_left hlt, hc]

/-- The first decision on `notFirst` teaches that `x1` is false, which follows from the formula. -/
theorem notFirst_learned :
    (Engine.ofFormula notFirst {}).solve.2.store.learned = [.ofLiteral ⟨⟨1, Nat.one_pos⟩, false⟩] ∧
      Entails notFirst (.ofLiteral ⟨⟨1, Nat.one_pos⟩, false⟩) := by
  have hlearned : (Engine.ofFormula notFirst {}).solve.2.store.learned =
      [.ofLiteral ⟨⟨1, Nat.one_pos⟩, false⟩] := by decide +kernel
  have hreached : Reached notFirst {} (Phase.policy .positive) false
      ⟨(Engine.ofFormula notFirst {}).solve.2, none⟩ := reaches_solve (by decide +kernel)
  obtain ⟨-, hentailed, -⟩ := store_grows hreached .refl
  exact ⟨hlearned, (hentailed _ (by rw [hlearned]; exact List.mem_singleton_self _)).1⟩

end Session

end ClauseLearning
