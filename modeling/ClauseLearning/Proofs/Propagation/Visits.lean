import ClauseLearning.Proofs.Propagation.Guards
import ClauseLearning.Proofs.Propagation.Lists

/-!
# Visiting the clauses of one list

The clauses in the list of a literal that has just become false are visited one after the other, and
each is guarded one position further.

* `Progress.FalsifiedAt`: why the visited clauses are guarded, case by case.
* `Progress.Visiting`: what holds before each visit.
* `Progress.visit_spec`: a visit never faults. It guards every clause one position further, or ends
  at a falsified clause.
-/

namespace ClauseLearning

namespace Progress

variable {store : ClauseStore} {p q : Progress} {c : Clause} {r : ClauseRef} {x : Watch}
  {l other : Literal} {refs rest done : List ClauseRef} {code i j k h : Nat}

/-- The state of a propagation by watches, with every clause guarded up to position `h`. -/
structure Watched (store : ClauseStore) (h : Nat) (p : Progress) : Prop extends Fits store p where
  guarded : ∀ r, p.watcher.Guarded store p.trail h r

/-- `l` was falsified at position `h`, at the current level. -/
def FalsifiedAt (t : Trail) (h : Nat) (l : Literal) : Prop :=
  ∃ s, t.slot l.var = some s ∧ s.literal = l.negate ∧ s.position = h ∧ s.level = t.level

namespace FalsifiedAt

variable {t t' : Trail}

theorem value (hw : t.WellFormed) (hl : FalsifiedAt t h l) : t.value l = some false := by
  obtain ⟨s, hs, hneg, -⟩ := hl
  exact hw.value_eq_false_iff.mpr ⟨s, hs, hneg⟩

theorem lt_size (hw : t.WellFormed) (hl : FalsifiedAt t h l) : h < t.size := by
  obtain ⟨s, hs, -, rfl, -⟩ := hl
  exact hw.slot_lt hs

theorem continues (hl : FalsifiedAt t h l) (hc : t.Continues t') : FalsifiedAt t' h l := by
  obtain ⟨s, hs, hneg, hp, hlevel⟩ := hl
  exact ⟨s, hc.slot_old hs, hneg, hp, hlevel.trans hc.level.symm⟩

/-- What else was falsified up to position `h` was falsified before. -/
theorem lt_of_ne (hw : t.WellFormed) (hl : FalsifiedAt t h l) {s : Slot} {m : Literal} (hne : m ≠ l)
    (hs : t.slot m.var = some s) (hneg : s.literal = m.negate) (hp : s.position < h + 1) :
    s.position < h := by
  obtain ⟨s', hs', hneg', hp', -⟩ := hl
  apply Nat.lt_of_le_of_ne (Nat.lt_succ_iff.mp hp)
  rintro rfl
  obtain ⟨-, rfl⟩ := hw.eq_of_position hs hs' hp'.symm
  exact hne (Literal.negate_inj (hneg.symm.trans hneg'))

/-- A guarded clause of one literal is not falsified. -/
theorem not_root {c : Clause} {x : Watch} {i : Nat} (hw : t.WellFormed) (hl : FalsifiedAt t h l)
    (hi : c.literals[i]? = some l) (hsize : c.size = 1) (hg : t.Guard h c x) : False := by
  obtain ⟨m, hm, s, hs, htrue, -⟩ := hg.root hsize
  obtain ⟨k, hk⟩ := Array.mem_iff_getElem?.mp hm
  have hik : i = k := by
    have h₁ := Clause.lt_size hi
    have h₂ := Clause.lt_size hk
    omega
  subst hik
  obtain rfl := Option.some.inj (hi.symm.trans hk)
  have hv := hl.value hw
  rw [Trail.value_eq_true_iff.mpr ⟨s, hs, htrue⟩] at hv
  cases hv

/-- A clause that watches `l` and a true literal is guarded one position further: nothing true is
above the level of `l`. -/
theorem guard_of_true {c : Clause} {x : Watch} {i j : Nat} (hw : t.WellFormed)
    (hl : FalsifiedAt t h l) (hp : x.Pair i j) (hi : c.literals[i]? = some l)
    (hj : c.literals[j]? = some other) (hsize : c.size ≠ 1) (hv : t.value other = some true) :
    t.Guard (h + 1) c x := by
  obtain ⟨s', hs', htrue⟩ := Trail.value_eq_true_iff.mp hv
  obtain ⟨s₀, hs₀, -, -, hlevel⟩ := hl
  apply Trail.Guard.of_pair hp hi hj hsize
  · intro s hs _ _
    obtain rfl := Option.some.inj (hs₀.symm.trans hs)
    exact ⟨s', hs', htrue, hlevel ▸ hw.level_le hs'⟩
  · intro s hs hneg _
    have := hw.value_eq_false_iff.mpr ⟨s, hs, hneg⟩
    rw [hv] at this
    cases this

/-- A clause that moves its watch from `l` to a literal that is not false is guarded one position
further: its other watched literal was not falsified before, as then `l` would be true. -/
theorem guard_of_move {c : Clause} {x y : Watch} {i j k : Nat} {m : Literal} (hw : t.WellFormed)
    (hl : FalsifiedAt t h l) (hg : t.Guard h c x) (hp : x.Pair i j) (hij : i ≠ j)
    (hi : c.literals[i]? = some l) (hj : c.literals[j]? = some other) (hsize : c.size ≠ 1)
    (hy : y.Pair k j) (hk : c.literals[k]? = some m) (hv : t.value m ≠ some false) :
    t.Guard (h + 1) c y := by
  apply Trail.Guard.of_pair hy hk hj hsize
  · intro s hs hneg _
    exact absurd (hw.value_eq_false_iff.mpr ⟨s, hs, hneg⟩) hv
  · intro s hs hneg hpos
    have hpos := hl.lt_of_ne hw (Clause.literal_ne hj hi (Ne.symm hij)) hs hneg hpos
    obtain ⟨s', hs', hlit, -⟩ := hg.pair hp.symm (Ne.symm hij) hj hi hs hneg hpos
    have := hl.value hw
    rw [Trail.value_eq_true_iff.mpr ⟨s', hs', hlit⟩] at this
    cases this

/-- A clause that does not watch `l` is guarded one position further. -/
theorem guarded (hw : t.WellFormed) (hl : FalsifiedAt t h l) {w : Watcher} {r : ClauseRef}
    (hg : w.Guarded store t h r) (hr : ¬w.Watching store r l) : w.Guarded store t (h + 1) r := by
  intro c x hc hx
  refine ⟨(hg hc hx).size_ne_zero, (hg hc hx).root, fun hp hij hi hj s hs hneg hpos => ?_⟩
  refine (hg hc hx).pair hp hij hi hj hs hneg (hl.lt_of_ne hw ?_ hs hneg hpos)
  rintro rfl
  exact hr ⟨c, x, hc, hx, Watch.has_iff.mpr ⟨_, _, hp, hi⟩⟩

end FalsifiedAt

/-- What a visit of the clauses in the list of `l`, which was falsified at position `h`, comes to.
`done` are the clauses kept before. -/
structure Visited (store : ClauseStore) (h code : Nat) (l : Literal) (done : List ClauseRef)
    (p : Progress) (v : Visit) : Prop extends Closes store code l done p v where
  guarded : ∀ r, v.progress.watcher.Guarded store v.progress.trail h r
  advanced : v.conflict = none → ∀ r, v.progress.watcher.Guarded store v.progress.trail (h + 1) r

namespace Visited

variable {v : Visit}

/-- What was derived before the visit counts as derived by it. -/
theorem prepend (hd : p.Derives store q) (hhead : q.watcher.head = p.watcher.head)
    (hpending : q.watcher.pending = p.watcher.pending) (hv : Visited store h code l done q v) :
    Visited store h code l done p v :=
  ⟨hv.toCloses.prepend hd hhead hpending, hv.guarded, hv.advanced⟩

/-- A clause that was kept before the visit may count as kept by it. -/
theorem keep (hv : Visited store h code l (done ++ [r]) p v) :
    Visited store h code l done p { v with kept := r :: v.kept } :=
  ⟨hv.toCloses.keep, hv.guarded, hv.advanced⟩

end Visited

/-- The clauses of `refs` are left to be visited in the list of `l`, which was falsified at position
`h`. Those of `done` are kept, and every clause that is not left is guarded one position further. -/
structure Visiting (store : ClauseStore) (h code : Nat) (l : Literal) (done refs : List ClauseRef)
    (p : Progress) : Prop extends Opened store code l done refs p where
  falsified : FalsifiedAt p.trail h l
  guarded : ∀ r, p.watcher.Guarded store p.trail h r
  visited : ∀ r, r ∉ refs → p.watcher.Guarded store p.trail (h + 1) r

namespace Visiting

/-- The visited clause stays. -/
theorem keep (hp : Visiting store h code l done (r :: rest) p)
    (hg : p.watcher.Guarded store p.trail (h + 1) r) :
    Visiting store h code l (done ++ [r]) rest p :=
  ⟨hp.toOpened.keep, hp.falsified, hp.guarded, Watcher.guarded_of_not_mem hg hp.visited⟩

/-- The visited clause moves to another list. -/
theorem move {w' : Watcher} {m : Literal} (hp : Visiting store h code l done (r :: rest) p)
    (hr : store.get? r = some c) (hx : w'.watches[r.index]? = some x)
    (hmoves : p.watcher.Moves w' store p.trail r l m other)
    (hpending : w'.pending = p.watcher.pending) (hg : p.trail.Guard (h + 1) c x) :
    Visiting store h code l done rest { p with watcher := w' } := by
  have hgr : w'.Guarded store p.trail (h + 1) r := Watcher.guarded_of_guard hr hx hg
  refine ⟨hp.toOpened.move hmoves hpending, hp.falsified, fun r' => ?_,
    Watcher.guarded_of_not_mem hgr fun r' hr' => ?_⟩
  · by_cases hrr : r' = r
    · subst hrr
      exact hgr.mono (Nat.le_succ h)
    · exact (hp.guarded r').congr (hmoves.rest hrr)
  · exact (hp.visited r' hr').congr (hmoves.rest (List.ne_of_not_mem_cons hr'))

/-- Assignments that leave the watcher as it is. -/
theorem derives (hp : Visiting store h code l done refs p) (hd : p.Derives store q)
    (hwatcher : q.watcher = p.watcher) : Visiting store h code l done refs q := by
  have hw := hp.wellFormed
  have hcont := hd.continues hw
  have hlt := hp.falsified.lt_size hw
  refine ⟨hp.toOpened.derives hd hwatcher, hp.falsified.continues hcont, fun r => ?_,
    fun r hr => ?_⟩
  · rw [hwatcher]
    exact (hp.guarded r).continues hcont (Nat.le_of_lt hlt)
  · rw [hwatcher]
    exact (hp.visited r hr).continues hcont hlt

end Visiting

/-- A visit succeeds and guards every clause one position further, or finds a conflict. -/
theorem visit_spec (done refs : List ClauseRef) (hp : Visiting store h code l done refs p) :
    ∃ v, visit store l refs p = .ok v ∧ Visited store h code l done p v := by
  induction refs generalizing p done with
  | nil =>
    exact ⟨⟨[], none, p⟩, rfl, ⟨.refl p, rfl, rfl, hp.toOpened, by simp⟩, hp.guarded,
      fun _ r => hp.visited r List.not_mem_nil⟩
  | cons r rest ih =>
    have hw := hp.wellFormed
    have hl := hp.falsified
    obtain ⟨c, x, hr, hx, hhas⟩ := hp.watching List.mem_cons_self
    obtain ⟨i, j, other, hpair, hi, hj, hij, hstep⟩ :=
      visit_step rest hp.toFits hr hx (hp.listed.valid hr hx) hhas hp.value
    have hguard := hp.guarded r hr hx
    have hsize : c.size ≠ 1 := fun hsize => hl.not_root hw hi hsize hguard
    have hne : i ≠ j := fun h => hsize (hij h)
    cases hstep with
    | stay hother hvisit =>
      have hg := hl.guard_of_true hw hpair hi hj hsize hother
      obtain ⟨v, hv, hvisited⟩ :=
        ih (done ++ [r]) (hp.keep (Watcher.guarded_of_guard hr hx hg))
      exact ⟨_, by rw [hvisit, hv]; rfl, hvisited.keep⟩
    | @move _ _ _ w hpair' hm hmv hmoves hhead hpending hx' hvisit =>
      have hg := hl.guard_of_move hw hguard hpair hne hi hj hsize hpair' hm hmv
      obtain ⟨v, hv, hvisited⟩ := ih done (hp.move hr hx' hmoves hpending hg)
      exact ⟨v, hvisit.trans hv,
        hvisited.prepend (q := { p with watcher := w }) (.of_eq rfl rfl) hhead hpending⟩
    | force hwatcher hd ha hvisit =>
      have hp' := hp.derives hd hwatcher
      have hg := hp'.falsified.guard_of_true hp'.wellFormed hpair hi hj hsize ha.value_self
      obtain ⟨v, hv, hvisited⟩ :=
        ih (done ++ [r]) (hp'.keep (Watcher.guarded_of_guard hr (hwatcher ▸ hx) hg))
      exact ⟨_, by rw [hvisit, hv]; rfl,
        (hvisited.prepend hd (by rw [hwatcher]) (by rw [hwatcher])).keep⟩
    | conflict hf hvisit =>
      refine ⟨_, hvisit, ⟨.refl p, rfl, rfl, hp.toOpened, fun hrr => ?_⟩, hp.guarded, by simp⟩
      obtain rfl := Option.some.inj hrr
      exact ⟨c, hr, hf⟩

end Progress

end ClauseLearning
