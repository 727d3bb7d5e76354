import ClauseLearning.Proofs.Propagation.Upkeep
import ClauseLearning.Proofs.Propagation.Visits

/-!
# Propagation by watches is complete

First the pending clauses are evaluated, which is enough to guard them (`Trail.Primes`). Then the
queue of assignments is worked off; when its head is at position `h`, every clause is guarded up to
`h` (`Progress.Queued`).

* `Progress.Ready`: the states in which a propagation may begin.
* `Progress.falsify_spec`, `propagateQueue_spec`, `propagatePending_spec`: the parts of a
  propagation.
* `Progress.propagate_spec`: a propagation never faults and is complete, in the sense of
  `Propagated`. The bound on the queue is never reached.
-/

namespace ClauseLearning

namespace Trail

variable {t t' : Trail} {c : Clause} {x : Watch} {l m : Literal} {h i j : Nat}

/-- Evaluating the clause in full is enough to guard it up to position `h`. -/
def Primes (t : Trail) (h : Nat) (c : Clause) (x : Watch) : Prop :=
  ∀ ⦃t'⦄, t'.WellFormed → t.Continues t' → t'.Settles c → t'.Guard h c x

namespace Primes

theorem continues (hp : t.Primes h c x) (hc : t.Continues t') : t'.Primes h c x :=
  fun _ hw hc' hs => hp hw (hc.trans hc') hs

/-- At the root level, nothing has to be guarded before the first assignment is propagated, and a
clause of one literal never. -/
theorem of_root (hl : t.level = 0) (hc : h = 0 ∨ c.size = 1) : t.Primes h c x := by
  intro t' hw hcont hsettles
  have hsize : c.size ≠ 0 := by
    rcases hsettles with ⟨l, hl, -⟩ | ⟨l, hl, -⟩ <;> exact Clause.size_ne_zero_of_mem hl
  refine ⟨hsize, fun hone => ?_, fun hp hij hi hj s hs hneg hpos => ?_⟩
  · rcases hsettles with ⟨l, hl', hv⟩ | ⟨l, hl', m, hm, hne, -⟩
    · obtain ⟨s, hs, hlit⟩ := value_eq_true_iff.mp hv
      have hle := hw.level_le hs
      rw [hcont.level, hl] at hle
      exact ⟨l, hl', s, hs, hlit, Nat.le_zero.mp hle⟩
    · exact absurd (Clause.eq_of_size_eq_one hone hl' hm) hne
  · rcases hc with rfl | hone
    · exact absurd hpos (Nat.not_lt_zero _)
    · have hic := Clause.lt_size hi
      have hjc := Clause.lt_size hj
      omega

/-- A clause that forces one watched literal, while the other was falsified at the current level. -/
theorem of_forces (hp : x.Pair i j) (hi : c.literals[i]? = some l) (hj : c.literals[j]? = some m)
    (hsize : c.size ≠ 1) (hc : t.Forces c l) {s : Slot} (hs : t.slot m.var = some s)
    (hlevel : s.level = t.level) : t.Primes h c x := by
  intro t' hw hcont hsettles
  have hv : t'.value l = some true :=
    hsettles.value_eq_true fun m hm hne => hcont.value_old (hc.others m hm hne)
  obtain ⟨s', hs', htrue⟩ := value_eq_true_iff.mp hv
  apply Guard.of_pair hp hi hj hsize
  · intro u hu hneg _
    have := hw.value_eq_false_iff.mpr ⟨u, hu, hneg⟩
    rw [hv] at this
    cases this
  · intro u hu _ _
    obtain rfl := Option.some.inj ((hcont.slot_old hs).symm.trans hu)
    have hle := hw.level_le hs'
    rw [hcont.level] at hle
    exact ⟨s', hs', htrue, hlevel ▸ hle⟩

end Primes

end Trail

namespace Clause

/-- A clause that forces a literal has the status of a unit clause. -/
theorem status_of_forces {c : Clause} {t : Trail} {l : Literal} (h : t.Forces c l) :
    c.status t = .unit l := by
  cases hs : c.status t with
  | satisfied => exact absurd h (settles_of_status (.inl hs)).not_forces
  | unresolved => exact absurd h (settles_of_status (.inr hs)).not_forces
  | falsified =>
    have := falsifies_of_status hs l h.mem
    rw [h.unassigned] at this
    cases this
  | unit m =>
    have hm := forces_of_status hs
    refine congrArg Status.unit (Classical.byContradiction fun hne => ?_)
    have := h.others m hm.mem hne
    rw [hm.unassigned] at this
    cases this

end Clause

namespace Watcher

variable {store : ClauseStore} {t t' : Trail} {w : Watcher} {r : ClauseRef} {h : Nat}

/-- Evaluating the clause of `r` in full is enough to guard it up to position `h`. -/
def Primed (w : Watcher) (store : ClauseStore) (t : Trail) (h : Nat) (r : ClauseRef) : Prop :=
  ∀ ⦃c x⦄, store.get? r = some c → w.watches[r.index]? = some x → t.Primes h c x

theorem Primed.continues (hp : w.Primed store t h r) (hc : t.Continues t') :
    w.Primed store t' h r := fun _ _ hr hx => (hp hr hx).continues hc

end Watcher

namespace Progress

variable {store : ClauseStore} {p q : Progress} {c : Clause} {r : ClauseRef} {l : Literal}
  {o : Option ClauseRef} {refs : List ClauseRef} {code h : Nat}

/-- The state of a propagation by watches between two visits: nothing is pending, and every clause
is guarded up to position `h`. -/
structure Queued (store : ClauseStore) (h : Nat) (p : Progress) : Prop
    extends Watched store h p where
  listed : p.watcher.Listed store p.trail
  /-- The lower levels have been propagated. -/
  started : p.trail.levelStart ≤ p.watcher.head
  pending : p.watcher.pending = #[]

theorem Queued.consistent (hp : p.Queued store h) : Consistent store p := ⟨hp.toFits, hp.listed⟩

theorem Queued.of_guarded {h' : Nat} (hp : p.Queued store h)
    (hg : ∀ r, p.watcher.Guarded store p.trail h' r) : p.Queued store h' :=
  ⟨⟨hp.toFits, hg⟩, hp.listed, hp.started, hp.pending⟩

/-- The head of the queue may go on. -/
theorem Queued.advance (hp : p.Queued store h) : Queued store h
    { p with watcher := { p.watcher with head := p.watcher.head + 1 } } :=
  have hnext := hp.consistent.queue (p.watcher.head + 1) _ hp.shape.pending
  ⟨⟨hnext.toFits, hp.guarded⟩, hnext.listed, Nat.le_succ_of_le hp.started, hp.pending⟩

/-! ## One falsified literal -/

/-- The clauses watching a literal that was falsified at position `h` are visited, which guards
every clause one position further or ends at a conflict. -/
theorem falsify_spec (hp : p.Queued store h) (hl : FalsifiedAt p.trail h l) :
    ∃ o q, falsify store l p = .ok (o, q) ∧ p.Derives store q ∧
      q.watcher.head = p.watcher.head ∧ q.Queued store h ∧
      (o = none → ∀ r, q.watcher.Guarded store q.trail (h + 1) r) ∧
      ∀ {r}, o = some r → ∃ c, store.get? r = some c ∧ q.trail.Falsifies c := by
  have hw := hp.wellFormed
  obtain ⟨code, refs, hcode, hrefs, hopened⟩ := hp.consistent.exists_opened (hl.value hw)
  have hvisiting : Visiting store h code l [] refs.toList (p.setList code []) :=
    ⟨hopened, hl, hp.guarded, fun r hr => hl.guarded hw (hp.guarded r) fun hmem =>
      hr (Array.mem_toList_iff.mpr ((hp.listed.mem_iff hcode hrefs).mpr hmem))⟩
  obtain ⟨v, hv, hvisited⟩ := visit_spec [] refs.toList hvisiting
  refine ⟨v.conflict, v.progress.setList code v.kept, ?_, hvisited.derives, hvisited.head, ?_,
    hvisited.advanced, hvisited.falsified⟩
  · rw [falsify_eq hcode hrefs, hv]
    rfl
  · have hback := hvisited.toCloses.consistent
    refine ⟨⟨hback.toFits, hvisited.guarded⟩, hback.listed, ?_,
      hvisited.pending.trans hp.pending⟩
    have hcont := hvisited.derives.continues hw
    have hstart : v.progress.trail.levelStart = p.trail.levelStart :=
      Trail.levelStart_congr hcont.starts
    have hhead : v.progress.watcher.head = p.watcher.head := hvisited.head
    exact hstart ▸ hhead ▸ hp.started

/-! ## The queue -/

/-- What is assigned at the head of the queue was falsified there, the other way round. -/
theorem falsifiedAt_head (hp : p.Queued store h) (hl : p.trail.assigned[p.watcher.head]? = some l) :
    FalsifiedAt p.trail p.watcher.head l.negate := by
  obtain ⟨s, hs, hlit, hpos⟩ := hp.wellFormed.assigned_iff.mp hl
  exact ⟨s, hs, by rw [hlit, Literal.negate_negate], hpos,
    Trail.level_eq_of_levelStart_le hp.wellFormed hs (hpos ▸ hp.started)⟩

/-- Enough steps reach the end of the queue, or a conflict, and more change nothing. -/
theorem propagateQueue_spec (steps : Nat) (hp : p.Queued store p.watcher.head)
    (hhead : p.watcher.head ≤ p.trail.size)
    (hsteps : p.trail.numVariables ≤ p.watcher.head + steps) :
    ∃ o q, (∀ more, propagateQueue store (steps + more) p = .ok (o, q)) ∧ p.Derives store q ∧
      (o = none → q.Queued store q.trail.size ∧ q.watcher.head = q.trail.size) ∧
      ∀ {r}, o = some r → q.Queued store q.trail.levelStart ∧
        ∃ c, store.get? r = some c ∧ q.trail.Falsifies c := by
  have hsize : p.trail.size ≤ p.trail.numVariables := hp.wellFormed.size_le
  induction steps generalizing p with
  | zero =>
    have heq : p.watcher.head = p.trail.size := by omega
    have hnone : p.trail.assigned[p.watcher.head]? = none :=
      Array.getElem?_eq_none (Nat.le_of_eq heq.symm)
    refine ⟨none, p, fun more => ?_, .refl p, fun _ => ⟨heq ▸ hp, heq⟩, by simp⟩
    cases more with
    | zero => rfl
    | succ more => simp only [propagateQueue, hnone]
  | succ steps ih =>
    simp only [Nat.succ_add, propagateQueue]
    cases hl : p.trail.assigned[p.watcher.head]? with
    | none =>
      have hle : p.trail.size ≤ p.watcher.head := Array.getElem?_eq_none_iff.mp hl
      have heq : p.watcher.head = p.trail.size := by omega
      exact ⟨none, p, fun _ => rfl, .refl p, fun _ => ⟨heq ▸ hp, heq⟩, by simp⟩
    | some l =>
      have hfalse := falsifiedAt_head hp hl
      have hlt := hfalse.lt_size hp.wellFormed
      obtain ⟨o, q, hq, hd, hhead', hq', hguarded, hf⟩ := falsify_spec hp.advance hfalse
      have hcont : p.trail.Continues q.trail := hd.continues hp.wellFormed
      have hnext : q.watcher.head = p.watcher.head + 1 := hhead'
      simp only [hq, bind, Except.bind]
      cases o with
      | some r =>
        refine ⟨some r, q, fun _ => rfl, hd, by simp, fun hr => ⟨hq'.of_guarded fun r => ?_, hf hr⟩⟩
        have hstart : q.trail.levelStart = p.trail.levelStart :=
          Trail.levelStart_congr hcont.starts
        exact (hq'.guarded r).mono (hstart ▸ hp.started)
      | none =>
        have hle := hcont.size_le
        have hvars : q.trail.numVariables = p.trail.numVariables := congrArg Array.size hcont.vars
        obtain ⟨o, q₂, hq₂, hd₂, hnone, hsome⟩ := ih (p := q)
          (hnext ▸ hq'.of_guarded (hguarded rfl)) (by omega) (by omega) hq'.wellFormed.size_le
        exact ⟨o, q₂, hq₂, hd.trans hd₂, hnone, hsome⟩

/-! ## Pending clauses -/

/-- What evaluating the pending clauses `refs` comes to. They are guarded up to position `h`, unless
one of them is falsified; then only the list of pending clauses has changed. -/
structure Evaluated (store : ClauseStore) (h : Nat) (refs : List ClauseRef) (p : Progress)
    (o : Option ClauseRef) (q : Progress) : Prop where
  derives : p.Derives store q
  watcher : o = none → q.watcher = p.watcher
  guarded : o = none → ∀ r ∈ refs, p.watcher.Guarded store q.trail h r
  pending : ∀ {r}, o = some r → ∃ refs' : Array ClauseRef, (∀ r ∈ refs', r ∈ refs) ∧
    q.watcher = { p.watcher with pending := refs' }
  falsified : ∀ {r}, o = some r → ∃ c, store.get? r = some c ∧ q.trail.Falsifies c

/-- A clause that is guarded already, perhaps by what it forces, is evaluated first. -/
theorem Evaluated.cons {p' : Progress} (he : Evaluated store h refs p' o q)
    (hd : p.Derives store p') (hwatcher : p'.watcher = p.watcher) (hw : p'.trail.WellFormed)
    (hh : h ≤ p'.trail.size) (hg : p.watcher.Guarded store p'.trail h r) :
    Evaluated store h (r :: refs) p o q where
  derives := hd.trans he.derives
  watcher ho := (he.watcher ho).trans hwatcher
  guarded ho r' hr' := by
    rcases List.mem_cons.mp hr' with rfl | hr'
    · exact hg.continues (he.derives.continues hw) hh
    · exact hwatcher ▸ he.guarded ho r' hr'
  pending ho := by
    obtain ⟨refs', hmem, heq⟩ := he.pending ho
    exact ⟨refs', fun r' hr' => List.mem_cons_of_mem r (hmem r' hr'), hwatcher ▸ heq⟩
  falsified := he.falsified

theorem propagatePending_spec (refs : List ClauseRef) (hover : store.Over p.trail.vars)
    (hw : p.trail.WellFormed) (hh : h ≤ p.trail.size) (hrefs : ∀ r ∈ refs, r.index < store.size)
    (hprimed : ∀ r ∈ refs, p.watcher.Primed store p.trail h r) :
    ∃ o q, propagatePending store refs p = .ok (o, q) ∧ Evaluated store h refs p o q := by
  induction refs generalizing p with
  | nil => exact ⟨none, p, rfl, .refl p, fun _ => rfl, by simp, by simp, by simp⟩
  | cons r rest ih =>
    obtain ⟨c, hr⟩ := ClauseStore.exists_get? (hrefs r List.mem_cons_self)
    cases pending_step rest hover hw hr with
    | settled hd hwatcher hsettles hpending =>
      have hw' := hd.wellFormed hw
      have hcont := hd.continues hw
      have hh' := Nat.le_trans hh hcont.size_le
      obtain ⟨o, q, hq, he⟩ := ih (hcont.vars ▸ hover) hw' hh'
        (fun r' hr' => hrefs r' (List.mem_cons_of_mem r hr')) fun r' hr' =>
          hwatcher ▸ (hprimed r' (List.mem_cons_of_mem r hr')).continues hcont
      refine ⟨o, q, hpending.trans hq, he.cons hd hwatcher hw' hh' fun d x hd' hx => ?_⟩
      obtain rfl := Option.some.inj (hr.symm.trans hd')
      exact hprimed r List.mem_cons_self hr hx hw' hcont hsettles
    | conflict hf hpending =>
      refine ⟨some r, _, hpending, .of_eq rfl rfl, by simp, by simp, fun _ => ⟨_, by simp, rfl⟩,
        fun hr' => ?_⟩
      cases hr'
      exact ⟨c, hr, hf⟩

/-! ## The whole propagation -/

/-- A state that can be propagated by watches. Pending clauses are guarded once they have been
evaluated; above the root level there is at most one, which forces a literal. -/
structure Ready (store : ClauseStore) (p : Progress) : Prop where
  listed : p.watcher.Listed store p.trail
  started : p.trail.levelStart ≤ p.watcher.head
  head_le : p.watcher.head ≤ p.trail.size
  guarded : ∀ r, r ∉ p.watcher.pending →
    p.watcher.Guarded store p.trail p.watcher.head r
  primed : ∀ r ∈ p.watcher.pending, p.watcher.Primed store p.trail p.watcher.head r
  forced : 0 < p.trail.level → p.watcher.pending = #[] ∨
    ∃ r c l, p.watcher.pending = #[r] ∧ store.get? r = some c ∧ p.trail.Forces c l

/-- The state after a propagation by watches. Without a conflict, everything is guarded up to the
end of the trail; a conflict above the root level leaves the lower levels so. -/
structure Settled (store : ClauseStore) (o : Option ClauseRef) (p : Progress) : Prop where
  shape : p.watcher.Shape store p.trail.vars
  queued : o = none → p.Queued store p.trail.size ∧ p.watcher.head = p.trail.size
  halted : o ≠ none → 0 < p.trail.level → p.Queued store p.trail.levelStart

/-- At most one pending clause, which forces a literal, ends in no conflict. -/
private theorem eq_none_of_forced (hpending : refs = [] ∨
      ∃ r c l, refs = [r] ∧ store.get? r = some c ∧ p.trail.Forces c l)
    (hq : propagatePending store refs p = .ok (o, q)) : o = none := by
  rcases hpending with rfl | ⟨r, c, l, rfl, hr, hc⟩
  · cases hq
    rfl
  · simp only [propagatePending, ClauseStore.fetch_eq_ok hr, Clause.status_of_forces hc, bind,
      Except.bind] at hq
    split at hq
    · cases hq
    · cases hq
      rfl

section Propagate

variable (hover : store.Over p.trail.vars) (hw : p.trail.WellFormed)
  (hshape : p.watcher.Shape store p.trail.vars) (hready : p.Ready store)

include hover hw hshape hready

private theorem exists_evaluated :
    ∃ o q, propagatePending store p.watcher.pending.toList
        { p with watcher := { p.watcher with pending := #[] } } = .ok (o, q) ∧
      Evaluated store p.watcher.head p.watcher.pending.toList
        { p with watcher := { p.watcher with pending := #[] } } o q :=
  propagatePending_spec p.watcher.pending.toList hover hw hready.head_le
    (fun r hr => hshape.pending r (Array.mem_toList_iff.mp hr))
    fun r hr => hready.primed r (Array.mem_toList_iff.mp hr)

/-- Once nothing is pending the queue may be worked off. -/
private theorem queued_of_pending
    (hq : propagatePending store p.watcher.pending.toList
      { p with watcher := { p.watcher with pending := #[] } } = .ok (none, q)) :
    p.Derives store q ∧ q.Queued store q.watcher.head ∧ q.watcher.head ≤ q.trail.size := by
  obtain ⟨o, q', hq', he⟩ := exists_evaluated hover hw hshape hready
  rw [hq'] at hq
  cases hq
  have hd := he.derives
  have hwatcher := he.watcher rfl
  have hcont : p.trail.Continues q.trail := hd.continues hw
  have hguarded' : ∀ r, p.watcher.Guarded store q.trail p.watcher.head r := by
    intro r
    by_cases hr : r ∈ p.watcher.pending
    · exact he.guarded rfl r (Array.mem_toList_iff.mpr hr)
    · exact (hready.guarded r hr).continues hcont hready.head_le
  have hp : Consistent store p := ⟨⟨hover, hw, hshape⟩, hready.listed⟩
  have hq := (hp.queue p.watcher.head #[] (by simp)).derives hd hwatcher
  refine ⟨hd, ⟨⟨hq.toFits, hwatcher ▸ hguarded'⟩, hq.listed, ?_, ?_⟩, ?_⟩
  · rw [hwatcher, Trail.levelStart_congr hcont.starts]
    exact hready.started
  · rw [hwatcher]
  · rw [hwatcher]
    exact Nat.le_trans hready.head_le hcont.size_le

/-- The bound on the queue is never what ends a propagation. -/
theorem propagateQueue_add
    (hq : propagatePending store p.watcher.pending.toList
      { p with watcher := { p.watcher with pending := #[] } } = .ok (none, q)) (more : Nat) :
    propagateQueue store (q.trail.numVariables + more) q =
      propagateQueue store q.trail.numVariables q := by
  obtain ⟨-, hqueued, hhead⟩ := queued_of_pending hover hw hshape hready hq
  obtain ⟨o, q', hq', -⟩ :=
    propagateQueue_spec q.trail.numVariables hqueued hhead (Nat.le_add_left _ _)
  exact (hq' more).trans (hq' 0).symm

/-- Propagation by watches never faults and is complete. -/
theorem propagate_spec :
    ∃ o q, p.propagate store = .ok (o, q) ∧ p.Propagated store o q ∧ q.Settled store o := by
  obtain ⟨o, q, hq, he⟩ := exists_evaluated hover hw hshape hready
  simp only [propagate, hq, bind, Except.bind]
  cases o with
  | some r =>
    have hcont : p.trail.Continues q.trail := he.derives.continues hw
    obtain ⟨refs, hrefs, hwatcher⟩ := he.pending rfl
    refine ⟨some r, q, rfl, ⟨he.derives, by simp, he.falsified⟩, ⟨?_, by simp, fun _ hl => ?_⟩⟩
    · rw [hwatcher, hcont.vars]
      exact ⟨hshape.watches_size, hshape.lists_size, fun r hr =>
        hshape.pending r (Array.mem_toList_iff.mp (hrefs r hr))⟩
    · rw [hcont.level] at hl
      have hforced : p.watcher.pending.toList = [] ∨ ∃ r c l, p.watcher.pending.toList = [r] ∧
          store.get? r = some c ∧ p.trail.Forces c l := by
        rcases hready.forced hl with h | ⟨r, c, l, h, hr, hc⟩
        · exact .inl (by simp [h])
        · exact .inr ⟨r, c, l, by simp [h], hr, hc⟩
      have hnone := eq_none_of_forced
        (p := { p with watcher := { p.watcher with pending := #[] } }) hforced hq
      cases hnone
  | none =>
    obtain ⟨hd, hqueued, hhead⟩ := queued_of_pending hover hw hshape hready hq
    obtain ⟨o, q₂, hq₂, hd₂, hnone, hsome⟩ :=
      propagateQueue_spec q.trail.numVariables hqueued hhead (Nat.le_add_left _ _)
    refine ⟨o, q₂, hq₂ 0, ⟨hd.trans hd₂, fun ho => ?_, fun hr => (hsome hr).2⟩, ?_, hnone, ?_⟩
    · obtain ⟨h, -⟩ := hnone ho
      exact Watcher.settles_of_guarded h.wellFormed h.shape h.listed h.guarded
    · cases o with
      | none => exact (hnone rfl).1.shape
      | some r => exact (hsome rfl).1.shape
    · intro ho _
      obtain ⟨r, rfl⟩ := Option.ne_none_iff_exists'.mp ho
      exact (hsome rfl).1

end Propagate

end Progress

end ClauseLearning
