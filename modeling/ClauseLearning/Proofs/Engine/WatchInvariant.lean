import ClauseLearning.Proofs.Engine.Invariant

/-!
# The watches between propagations

In the middle of a propagation by watches a clause may watch a false literal beside one that is not
true. At the end no clause does: a false watched literal is backed by the other one, which is true at
a level not above (`Watcher.Sound`). A conflict stops the propagation halfway and leaves clauses of
the current level behind; they are sound again when this level is undone.

* `Sound.of_guarded`: a watcher is sound when every clause is guarded up to the end of the trail.
* `Sound.backtrack`: it stays so when levels are undone.
* `Running.sound_of_propagated`, `Running.sound_of_backjump`: the two exits of a propagation.
* `Session.watches_sound`: both of them, in every run.
-/

namespace ClauseLearning

namespace Trail

variable {t : Trail} {l m : Literal} {c : Clause} {x : Watch} {k : Nat}

/-- If `l` is false, then `m` is true, and was assigned at a level not above that of `l`. -/
def BackedBy (t : Trail) (l m : Literal) : Prop :=
  t.value l = some false → t.value m = some true ∧
    ∃ i j, t.levelOf m.var = some i ∧ t.levelOf l.var = some j ∧ i ≤ j

/-- The watch has two positions of the clause, and each of their literals is backed by the other. -/
def WatchedSoundly (t : Trail) (c : Clause) (x : Watch) : Prop :=
  x.first ≠ x.second ∧ ∃ l m, c.literals[x.first]? = some l ∧ c.literals[x.second]? = some m ∧
    t.BackedBy l m ∧ t.BackedBy m l

/-- A literal guarded up to the end of the trail is backed. -/
theorem Guards.backedBy (hw : t.WellFormed) (h : t.Guards t.size l m) : t.BackedBy l m := by
  intro hv
  obtain ⟨s, hs, hneg⟩ := hw.value_eq_false_iff.mp hv
  obtain ⟨s', hs', htrue, hle⟩ := h hs hneg (hw.slot_lt hs)
  exact ⟨value_eq_true_iff.mpr ⟨s', hs', htrue⟩, s'.level, s.level, by simp [levelOf, hs'],
    by simp [levelOf, hs], hle⟩

theorem Guard.watchedSoundly (hw : t.WellFormed) (hg : t.Guard t.size c x) (hvalid : x.Valid c)
    (hsize : 2 ≤ c.size) : t.WatchedSoundly c x := by
  obtain ⟨hfirst, hsecond, hdistinct⟩ := hvalid hg.size_ne_zero
  have hne : x.first ≠ x.second := fun heq => by
    have := hdistinct heq
    omega
  obtain ⟨l, hl⟩ := Clause.exists_literal hfirst
  obtain ⟨m, hm⟩ := Clause.exists_literal hsecond
  exact ⟨hne, l, m, hl, hm, Guards.backedBy hw (hg.pair x.pair_self hne hl hm),
    Guards.backedBy hw (hg.pair x.pair_self.symm hne.symm hm hl)⟩

/-- What backs a literal is undone no earlier than the literal. -/
theorem BackedBy.backtrack (hw : t.WellFormed) (h : t.BackedBy l m) (k : Nat) :
    (t.backtrack k).BackedBy l m := by
  intro hv
  obtain ⟨hv, s, hs, hle⟩ := (value_backtrack_eq_some_iff hw).mp hv
  obtain ⟨hm, i, j, hi, hj, hij⟩ := h hv
  obtain ⟨u, hu, rfl⟩ := Option.map_eq_some_iff.mp hi
  have hjk : j ≤ k := by
    rw [levelOf, hs, Option.map_some, Option.some.injEq] at hj
    omega
  exact ⟨(value_backtrack_eq_some_iff hw).mpr ⟨hm, u, hu, by omega⟩, u.level, j,
    (levelOf_backtrack_eq_some_iff hw).mpr ⟨hi, by omega⟩,
    (levelOf_backtrack_eq_some_iff hw).mpr ⟨hj, hjk⟩, hij⟩

theorem WatchedSoundly.backtrack (hw : t.WellFormed) (h : t.WatchedSoundly c x) (k : Nat) :
    (t.backtrack k).WatchedSoundly c x := by
  obtain ⟨hne, l, m, hl, hm, hlm, hml⟩ := h
  exact ⟨hne, l, m, hl, hm, hlm.backtrack hw k, hml.backtrack hw k⟩

end Trail

namespace Watcher

variable {store : ClauseStore} {t : Trail} {w : Watcher} {vs : Array Var}

/-- Each clause is listed under the literals it watches, and a clause of two or more literals is
watched soundly. -/
structure Sound (w : Watcher) (store : ClauseStore) (t : Trail) : Prop where
  listed : w.Listed store t
  watched : ∀ ⦃r c⦄, store.get? r = some c → 2 ≤ c.size →
    ∃ x, w.watches[r.index]? = some x ∧ t.WatchedSoundly c x

namespace Sound

theorem of_guarded (hw : t.WellFormed) (hshape : w.Shape store vs) (hlisted : w.Listed store t)
    (hg : ∀ r, w.Guarded store t t.size r) : w.Sound store t where
  listed := hlisted
  watched r c hr hsize := by
    obtain ⟨x, hx⟩ := hshape.exists_watch hr
    exact ⟨x, hx, (hg r hr hx).watchedSoundly hw (hlisted.valid hr hx) hsize⟩

theorem backtrack (hw : t.WellFormed) (h : w.Sound store t) (k : Nat) :
    (w.backtrack (t.backtrack k)).Sound store (t.backtrack k) where
  listed := h.listed.backtrack k
  watched r c hr hsize := by
    obtain ⟨x, hx, hsound⟩ := h.watched hr hsize
    exact ⟨x, hx, hsound.backtrack hw k⟩

end Sound

end Watcher

namespace Engine

variable {σ : Type} {f : Formula} {config : Config} {policy : Policy σ} {e e' : Engine σ}
  {s' : State} {r : ClauseRef} {k : Nat}

/-- The watches of the engine are sound for its store and its trail. -/
def WatchesSoundly (e : Engine σ) : Prop := e.watcher.Sound e.store e.trail

theorem WatchesSoundly.backjump (h : e.WatchesSoundly) (hw : e.trail.WellFormed) (k : Nat) :
    (e.backjump k).WatchesSoundly :=
  Watcher.Sound.backtrack hw h k

namespace Running

/-- A propagation without a conflict works off the whole queue. -/
theorem sound_of_propagated (h : e.Running f config policy) (hs : e.InState f .propagating)
    (hwatches : e.Watches) (hm : e.Move .propagating e' s') :
    (∃ r, s' = .conflict r) ∨ (s' = .deciding ∨ s' = .satisfied) ∧ e'.WatchesSoundly := by
  obtain ⟨hrunning, -⟩ := h.step hs hm
  cases hm with
  | @propagate o q hq hshape hsettled =>
    cases o with
    | some r => exact .inl ⟨r, rfl⟩
    | none =>
      obtain ⟨hqueued, -⟩ := (hsettled hwatches).queued rfl
      refine .inr ⟨?_, .of_guarded hrunning.wellFormed hshape hqueued.listed hqueued.guarded⟩
      simp only [afterPropagation]
      split
      · exact .inr rfl
      · exact .inl rfl

/-- A conflict leaves every clause guarded up to the start of the current level. -/
theorem sound_of_backjump (h : e.Running f config policy) (hs : e.InState f (.conflict r))
    (hwatches : e.Watches) (hk : k < e.trail.level) : (e.backjump k).WatchesSoundly := by
  have hqueued := hs.2 hwatches (Nat.zero_lt_of_lt hk)
  exact .of_guarded (h.wellFormed.backtrack k) (h.shape.backtrack k) (hqueued.listed.backtrack k)
    fun r c x hr hx => (hqueued.guarded r hr hx).backtrack h.wellFormed hk

end Running

end Engine

namespace Session

variable {σ : Type} {f : Formula} {config : Config} {policy : Policy σ} {memory : σ}
  {e : Engine σ} {s : State}

/-- In every run by watches, the watches are sound after a propagation without a conflict, and after
a conflict as soon as the engine has jumped back, before it learns. They stay sound when any number
of levels is undone. -/
theorem watches_sound (h : Reached f config policy memory ⟨e, some s⟩)
    (hmode : config.propagation = .watchedLiterals) :
    (s = .propagating → ∃ e' s', e.step s = (e', s') ∧ ((∃ r, s' = .conflict r) ∨
      (s' = .deciding ∨ s' = .satisfied) ∧ e'.WatchesSoundly ∧
        ∀ k, (e'.backjump k).WatchesSoundly)) ∧
    ∀ r, s = .conflict r → 0 < e.trail.level → ∃ c a b, e.store.get? r = some c ∧
      analyze e.store e.trail e.config.resolution c = .ok a ∧ a.backjump < e.trail.level ∧
      b = Engine.backjump { e with stats := e.countConflict, log := e.logAnalysis c a }
        a.backjump ∧
      e.resolveConflict r = (do return (← b.learn a.learned, .propagating)) ∧
      b.WatchesSoundly ∧ ∀ k, (b.backjump k).WatchesSoundly := by
  obtain ⟨hrunning, hs⟩ := h.invariant
  have hwatches : e.Watches := by
    rw [Engine.Watches, hrunning.config]
    exact hmode
  refine ⟨?_, ?_⟩
  · rintro rfl
    have hm := hrunning.move hs rfl rfl
    have hw' := (hrunning.step hs hm).1.wellFormed
    refine ⟨_, _, rfl, ?_⟩
    rcases hrunning.sound_of_propagated hs hwatches hm with hconflict | ⟨hs', hsound⟩
    · exact .inl hconflict
    · exact .inr ⟨hs', hsound, fun k => hsound.backjump hw' k⟩
  · rintro r rfl hl
    obtain ⟨c, hc, hf⟩ := hs.1
    obtain ⟨d, l, k, hanalyze, -, hreturns⟩ := analyze_spec hrunning.wellFormed hrunning.justified
      e.config.resolution hl (Engine.conflicting hrunning hc hf hl)
    have hsound := hrunning.sound_of_backjump hs hwatches hreturns.lt_level
    refine ⟨c, ⟨d, k, .finished⟩, _, hc, hanalyze, hreturns.lt_level, rfl, ?_, hsound,
      fun j => hsound.backjump (hrunning.wellFormed.backtrack k) j⟩
    have hne : e.trail.level ≠ 0 := Nat.ne_of_gt hl
    simp only [Engine.resolveConflict, ClauseStore.fetch_eq_ok hc, hne, hanalyze, bind, Except.bind,
      reduceCtorEq, ↓reduceIte]
    rfl

/-- On `notFirst` the watches are sound after the conflict of the first decision is undone, and at
the end, where the second clause watches a literal that the second decision has made false. -/
theorem notFirst_watches_sound :
    (notFirstAfter 4).engine.trail.level = 1 ∧
      ((notFirstAfter 4).engine.backjump 0).WatchesSoundly ∧
      ((notFirstAfter 7).engine.step .propagating).2 = .satisfied ∧
      ((notFirstAfter 7).engine.step .propagating).1.trail.value ⟨⟨2, Nat.two_pos⟩, false⟩ =
        some false ∧
      ((notFirstAfter 7).engine.step .propagating).1.WatchesSoundly := by
  have hlevel : (notFirstAfter 4).engine.trail.level = 1 := by decide +kernel
  have hconflict : (notFirstAfter 4).state = some (.conflict ⟨1⟩) := by decide +kernel
  have hpropagating : (notFirstAfter 7).state = some .propagating := by decide +kernel
  have hsatisfied : ((notFirstAfter 7).engine.step .propagating).2 = .satisfied := by
    decide +kernel
  obtain ⟨-, hback⟩ := watches_sound (reached_notFirstAfter hconflict) rfl
  obtain ⟨c, a, b, -, -, hlt, rfl, -, hsound, -⟩ := hback ⟨1⟩ rfl (by omega)
  obtain ⟨hstep, -⟩ := watches_sound (reached_notFirstAfter hpropagating) rfl
  obtain ⟨e', s', heq, hend⟩ := hstep rfl
  have hbackjump : a.backjump = 0 := by omega
  rw [hbackjump] at hsound
  refine ⟨hlevel, hsound, hsatisfied, by decide +kernel, ?_⟩
  rw [heq] at hsatisfied ⊢
  rcases hend with ⟨r, hr⟩ | ⟨-, hsound', -⟩
  · rw [hr] at hsatisfied
    cases hsatisfied
  · exact hsound'

end Session

end ClauseLearning
