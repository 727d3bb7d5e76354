import ClauseLearning.Proofs.Propagation.Watching

/-!
# Propagating again

Between two propagations the engine decides or learns. Each of these changes, made after a
propagation by watches, leads to a state in which the next one may begin:

* `Ready.of_fresh`: the start of a run.
* `Ready.of_decision`: a new level.
* `Ready.of_learned`: a return to a lower level, where a learned clause forces a literal
  (`Trail.Asserting`); `Ready.continues`: the assignment of this literal at the root level.
-/

namespace ClauseLearning

namespace Trail

variable {t : Trail} {c : Clause} {l m : Literal} {i : Nat}

/-- The clause forces `l`, and would have forced nothing at a lower level: another of its literals
belongs to the current one, unless this is the root level and the clause has no other. -/
structure Asserting (t : Trail) (c : Clause) (l : Literal) : Prop where
  forces : t.Forces c l
  current : c.size = 1 ∧ t.level = 0 ∨
    c.size ≠ 1 ∧ ∃ m ∈ c, m ≠ l ∧ ∃ s, t.slot m.var = some s ∧ s.level = t.level

/-- The rank of a position is above the current level if its literal is not false. -/
theorem rank_of_value_ne (hi : c.literals[i]? = some l) (hv : t.value l ≠ some false) :
    Watch.rank t c i = t.level + 1 := by
  simp only [Watch.rank, hi, hv, ↓reduceIte]

theorem rank_of_slot (hi : c.literals[i]? = some l) (hv : t.value l = some false) {s : Slot}
    (hs : t.slot l.var = some s) : Watch.rank t c i = s.level := by
  simp only [Watch.rank, hi, hv, ↓reduceIte, levelOf, hs, Option.map_some, Option.getD_some]

/-- The chosen watches of an asserting clause stand at the literal it forces and at one of the
current level, so evaluating the clause is enough to guard it. -/
theorem Asserting.primes (hw : t.WellFormed) (hc : t.Asserting c l) (h : Nat) :
    t.Primes h c (Watch.choose t c) := by
  rcases hc.current with ⟨hsize, hl⟩ | ⟨hsize, m, hm, hml, s, hs, hlevel⟩
  · exact .of_root hl (.inr hsize)
  obtain ⟨i, hi⟩ := Array.mem_iff_getElem?.mp hc.forces.mem
  obtain ⟨j, hj⟩ := Array.mem_iff_getElem?.mp hm
  have hic := Clause.lt_size hi
  have hjc := Clause.lt_size hj
  obtain ⟨hfirst, hsecond, hdistinct, hmax, hmax'⟩ := Watch.choose_spec t c (by omega)
  have hranki : Watch.rank t c i = t.level + 1 :=
    rank_of_value_ne hi (by simp [hc.forces.unassigned])
  have hrankj := rank_of_slot hj (hc.forces.others m hm hml) hs
  -- The literals besides `l` are false, so their ranks are their levels.
  have hrank : ∀ {k n}, c.literals[k]? = some n → n ≠ l →
      ∃ u, t.slot n.var = some u ∧ Watch.rank t c k = u.level ∧ u.level ≤ t.level := by
    intro k n hk hn
    have hv := hc.forces.others n (Clause.mem_of_getElem? hk) hn
    obtain ⟨u, hu, -⟩ := hw.value_eq_false_iff.mp hv
    exact ⟨u, hu, rank_of_slot hk hv hu, hw.level_le hu⟩
  obtain ⟨l₁, h₁⟩ := Clause.exists_literal hfirst
  obtain ⟨l₂, h₂⟩ := Clause.exists_literal hsecond
  have hl₁ : l₁ = l := by
    apply Classical.byContradiction
    intro hne
    obtain ⟨u, -, hu, hle⟩ := hrank h₁ hne
    have := hmax i hic
    omega
  subst hl₁
  have hne : (Watch.choose t c).second ≠ (Watch.choose t c).first :=
    fun heq => hsize (hdistinct heq.symm)
  have hl₂ : l₂ ≠ l₁ := Clause.literal_ne h₂ h₁ hne
  obtain ⟨u, hu, hranku, hle⟩ := hrank h₂ hl₂
  have hjfirst : j ≠ (Watch.choose t c).first := by
    rintro rfl
    exact hml (Option.some.inj (hj.symm.trans h₁))
  have := hmax' j hjc hjfirst
  exact .of_forces (Watch.pair_self _) h₁ h₂ hsize hc.forces hu (by omega)

end Trail

namespace Progress

variable {store : ClauseStore} {p q : Progress} {t : Trail} {w : Watcher} {c : Clause} {l : Literal}
  {k : Nat}

/-- A run may begin when every clause is pending and nothing is assigned. -/
theorem Ready.of_fresh (hl : p.trail.level = 0) (hw : p.watcher.Fresh store p.trail) :
    p.Ready store := by
  refine ⟨hw.listed, ?_, ?_, ?_, ?_, fun h => absurd hl (Nat.ne_of_gt h)⟩
  · rw [Trail.levelStart_of_level_eq_zero hl]
    exact Nat.zero_le _
  · rw [hw.head]
    exact Nat.zero_le _
  · intro r hr c x hc
    exact absurd (hw.pending r (ClauseStore.index_lt_of_get? hc)) hr
  · intro r _ c x _ _
    exact .of_root hl (.inl hw.head)

/-- After a complete propagation, a decision may be propagated. -/
theorem Ready.of_decision (hp : p.Queued store p.trail.size) (hhead : p.watcher.head = p.trail.size)
    (ha : p.trail.Appends l .decision t) (log : List Event) :
    Ready store ⟨t, p.watcher, log⟩ := by
  have hst : t.starts = p.trail.starts.push p.trail.size := by
    rcases ha.starts with ⟨-, h⟩ | ⟨h, -⟩
    · exact absurd rfl h
    · exact h
  have hstart : t.levelStart = p.trail.size := by
    simp [Trail.levelStart, Trail.level, hst]
  refine ⟨hp.listed.congr ha.vars, Nat.le_of_eq (hstart.trans hhead.symm), ?_, ?_, ?_,
    fun _ => .inl hp.pending⟩
  · show p.watcher.head ≤ t.size
    rw [hhead, ha.size_eq]
    exact Nat.le_succ _
  · intro r _ c x hr hx
    exact (hhead ▸ hp.guarded r hr hx).appends ha (Nat.le_of_eq hhead)
  · intro r hr
    rw [hp.pending] at hr
    simp at hr

/-- Below a conflict every clause is guarded, and a learned clause that is asserting there may be
propagated. -/
theorem Ready.of_learned (hp : p.Queued store p.trail.levelStart) (hk : k < p.trail.level)
    (hc : (p.trail.backtrack k).Asserting c l)
    (hattach : (p.watcher.backtrack (p.trail.backtrack k)).attach store.nextRef c
      (p.trail.backtrack k) = .ok w) (log : List Event) :
    Ready (store.push c) ⟨p.trail.backtrack k, w, log⟩ := by
  have hw := hp.wellFormed
  have hsize := Trail.size_backtrack_le_levelStart hw hk
  obtain ⟨w', hattach', -, hhead, hpending, hwatches, hlisted⟩ :=
    Watcher.attach_spec (hw.backtrack k).sorted (hp.shape.backtrack k) c
  obtain rfl := Except.ok.inj (hattach'.symm.trans hattach)
  have hhead' : w'.head = (p.trail.backtrack k).size := by
    rw [hhead]
    exact Nat.min_eq_right (Nat.le_trans hsize hp.started)
  have hpending' : w'.pending = #[store.nextRef] := by
    rw [hpending]
    exact congrArg (·.push store.nextRef) hp.pending
  have hnew := Watcher.watch_push_self hp.shape.watches_size hwatches
  refine ⟨?_, ?_, Nat.le_of_eq hhead', ?_, ?_, ?_⟩
  · exact hlisted (hp.listed.backtrack k)
  · rw [hhead']
    exact Trail.levelStart_le_size (hw.backtrack k)
  · intro r hr d x hd hx
    have hne : r ≠ store.nextRef := by
      rintro rfl
      exact hr (by simp [hpending'])
    rcases ClauseStore.get?_push_cases hd with ⟨h, -⟩ | hd
    · exact absurd h hne
    have hold := Watcher.watch_push_of_get? hp.shape.watches_size hwatches hd
    exact hhead' ▸ (hp.guarded r hd (hold.symm.trans hx)).backtrack hw hk
  · intro r hr d x hd hx
    rw [hpending'] at hr
    obtain rfl : r = store.nextRef := by simpa using hr
    rw [ClauseStore.get?_push_nextRef] at hd
    obtain rfl := Option.some.inj hd
    obtain rfl := Option.some.inj (hnew.symm.trans hx)
    exact hc.primes (hw.backtrack k) _
  · exact fun _ => .inr ⟨store.nextRef, c, l, hpending', ClauseStore.get?_push_nextRef store c,
      hc.forces⟩

/-- At the root level, further implied assignments may be propagated with the others. -/
theorem Ready.continues (hp : p.Ready store) (hl : p.trail.level = 0) (hc : p.trail.Continues t)
    (log : List Event) : Ready store ⟨t, p.watcher, log⟩ where
  listed := hp.listed.congr hc.vars
  started := by
    rw [Trail.levelStart_congr hc.starts]
    exact hp.started
  head_le := Nat.le_trans hp.head_le hc.size_le
  guarded r hr := (hp.guarded r hr).continues hc hp.head_le
  primed r hr := (hp.primed r hr).continues hc
  forced h := by
    rw [hc.level, hl] at h
    exact absurd h (Nat.lt_irrefl 0)

end Progress

end ClauseLearning
