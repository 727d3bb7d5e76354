import ClauseLearning.Proofs.Engine.Termination
import ClauseLearning.Proofs.Trail.Changes

/-!
# The history of a run

A transition may return to a lower level of the trail, and then only assigns literals. So its changes
can be read off the trails before and after it (`Trail.changesTo`). Together they are the history of
a run (`Engine.changes`), in which assignments that were undone later still stand.

* `Appends.changesTo`, `Derives.exists_implications`, `Learns.changesTo`: the changes of a decision,
  of a propagation and of a conflict.
* `Move.run_changesTo`: each transition makes its changes.
* `Session.history_induct`: an induction over a run and its history.
-/

namespace ClauseLearning

namespace Trail

variable {t t' t'' : Trail} {l : Literal} {r : Reason} {cs : List Change} {n : Nat}

/-! ## The changes between two trails -/

/-- The assignment of a literal, by its reason. -/
def Change.assign (l : Literal) : Reason → Change
  | .decision => .decide l
  | .clause r => .imply l r

/-- The assignments from position `n` on. -/
def assignmentsFrom (t : Trail) (n : Nat) : List Change :=
  (t.assigned.toList.drop n).filterMap fun l => (t.reason l.var).map (Change.assign l)

/-- The changes of a transition from `t` to `t'`: the return to a lower level, if there is one, and
the assignments after it. -/
def changesTo (t t' : Trail) : List Change :=
  (if t'.level < t.level then [.backtrack t'.level] else []) ++
    t'.assignmentsFrom (t.backtrack t'.level).size

/-- Changes are made one after the other. -/
theorem run_append (h : t.run cs = .ok t') (ds : List Change) : t.run (cs ++ ds) = t'.run ds := by
  induction cs generalizing t with
  | nil =>
    obtain rfl := Except.ok.inj h
    rfl
  | cons c cs ih =>
    cases hc : c.apply t with
    | error x =>
      rw [run, hc] at h
      cases h
    | ok t₁ =>
      rw [run, hc] at h
      rw [List.cons_append, run, hc]
      exact ih h

theorem run_singleton (c : Change) : t.run [c] = c.apply t := by
  rw [run]
  cases c.apply t <;> rfl

theorem assignmentsFrom_size (t : Trail) : t.assignmentsFrom t.size = [] := by
  have hdrop : t.assigned.toList.drop t.size = [] :=
    List.drop_eq_nil_of_le (Nat.le_of_eq Array.length_toList)
  rw [assignmentsFrom, hdrop, List.filterMap_nil]

/-- Without a return, the changes are assignments. -/
theorem changesTo_of_le (h : t.level ≤ t'.level) : t.changesTo t' = t'.assignmentsFrom t.size := by
  rw [changesTo, if_neg (Nat.not_lt.mpr h), backtrack_eq_self h, List.nil_append]

theorem changesTo_self (t : Trail) : t.changesTo t = [] := by
  rw [changesTo_of_le (Nat.le_refl _), assignmentsFrom_size]

namespace Appends

/-- The earlier assignments stay, and the new one comes last. -/
theorem assignmentsFrom (h : t.WellFormed) (ha : t.Appends l r t') (hn : n ≤ t.size) :
    t'.assignmentsFrom n = t.assignmentsFrom n ++ [.assign l r] := by
  have hold : ∀ m ∈ t.assigned.toList.drop n, t'.reason m.var = t.reason m.var := by
    intro m hm
    obtain ⟨s, hs, -⟩ := h.exists_slot_of_mem (Array.mem_toList_iff.mp (List.mem_of_mem_drop hm))
    rw [reason, reason, hs, ha.slot_old hs]
  have hnew : t'.reason l.var = some r := by
    rw [reason, ha.slot_self, Option.map_some]
  have hle : n ≤ t.assigned.toList.length := Nat.le_trans hn (Nat.le_of_eq Array.length_toList.symm)
  simp only [Trail.assignmentsFrom]
  rw [ha.assigned, Array.toList_push, List.drop_append_of_le_length hle, List.filterMap_append,
    List.filterMap_congr fun m hm => congrArg (Option.map (Change.assign m)) (hold m hm)]
  simp [hnew]

/-- A transition that assigns one literal has no other change. -/
theorem changesTo (h : t.WellFormed) (ha : t.Appends l r t') :
    t.changesTo t' = [.assign l r] := by
  rw [changesTo_of_le ha.level_le, ha.assignmentsFrom h (Nat.le_refl _), assignmentsFrom_size,
    List.nil_append]

end Appends

end Trail

/-! ## The changes of a propagation -/

/-- A literal that a clause forced, with the reference of the clause. -/
structure Implication where
  literal : Literal
  ref : ClauseRef
  clause : Clause

namespace Implication

/-- The assignment of the literal. -/
def change (i : Implication) : Trail.Change := .imply i.literal i.ref

/-- The record of the assignment in the log. -/
def event (i : Implication) : Event := .implied i.literal i.clause

/-- The clause stands in the store under the reference. -/
def In (store : ClauseStore) (i : Implication) : Prop := store.get? i.ref = some i.clause

end Implication

/-- A propagation assigns literals and logs each of them. No clause that was true before forces one.
-/
theorem Progress.Derives.exists_implications {store : ClauseStore} {p q : Progress}
    (h : p.Derives store q) (hw : p.trail.WellFormed) :
    ∃ is : List Implication, p.trail.changesTo q.trail = is.map Implication.change ∧
      p.trail.run (is.map Implication.change) = .ok q.trail ∧
      q.trail.size = p.trail.size + is.length ∧
      q.events = p.events ++ is.map Implication.event ∧
      ∀ i ∈ is, i.In store ∧ ∀ m ∈ i.clause, p.trail.value m ≠ some true := by
  have key : ∀ {x : Trail × List Event},
      Relation.ReflTransGen (UnitStep store) (p.trail, p.log) x →
        x.1.WellFormed ∧ p.trail.Continues x.1 ∧
        ∃ is : List Implication, x.1.assignmentsFrom p.trail.size = is.map Implication.change ∧
          p.trail.run (is.map Implication.change) = .ok x.1 ∧
          x.1.size = p.trail.size + is.length ∧
          x.2.reverse = p.events ++ is.map Implication.event ∧
          ∀ i ∈ is, i.In store ∧ ∀ m ∈ i.clause, p.trail.value m ≠ some true := by
    intro x hx
    induction hx with
    | refl =>
      exact ⟨hw, .refl _, [], Trail.assignmentsFrom_size _, rfl, rfl, by simp [events], by simp⟩
    | tail _ hs ih =>
      cases hs with
      | @intro t t' log r c l hr hc hp =>
        obtain ⟨hw', hcont, is, hchanges, hrun, hsize, hevents, his⟩ := ih
        have ha := Trail.appends_of_pushImplied hw' hp
        have hfree : ∀ m ∈ c, p.trail.value m ≠ some true := by
          intro m hm hv
          have hold := hcont.value_old hv
          by_cases hml : m = l
          · rw [hml, hc.unassigned] at hold
            cases hold
          · rw [hc.others m hm hml] at hold
            cases hold
        refine ⟨hw'.append ha, hcont.trans (.of_appends ha), is ++ [⟨l, r, c⟩], ?_, ?_, ?_, ?_, ?_⟩
        · rw [ha.assignmentsFrom hw' hcont.size_le, hchanges, List.map_append]
          rfl
        · rw [List.map_append, Trail.run_append hrun, List.map_singleton, Trail.run_singleton]
          exact hp
        · rw [ha.size_eq, hsize, List.length_append, List.length_singleton, Nat.add_assoc]
        · rw [List.reverse_cons, hevents, List.map_append, List.append_assoc]
          rfl
        · intro i hi
          rcases List.mem_append.mp hi with hi | hi
          · exact his i hi
          · obtain rfl := List.mem_singleton.mp hi
            exact ⟨hr, hfree⟩
  obtain ⟨-, hcont, is, hchanges, hrest⟩ := key h
  rw [Trail.changesTo_of_le (Nat.le_of_eq hcont.level.symm)]
  exact ⟨is, hchanges, hrest⟩

namespace Engine

variable {σ : Type} {f : Formula} {config : Config} {policy : Policy σ} {e e' : Engine σ}
  {s s' : State} {c d : Clause} {l : Literal} {k : Nat}

/-! ## The changes of a run -/

/-- A conflict returns to a lower level and asserts the learned clause if it is a unit clause. -/
theorem Learns.changesTo (h : e.Running f config policy) (hl : e.Learns c d l k e') :
    e.trail.changesTo e'.trail =
      .backtrack k :: if d.size = 1 then [.imply l e.store.nextRef] else [] := by
  rw [Trail.changesTo, hl.level_eq h, if_pos hl.returns.lt_level]
  rcases hl.trail with ⟨ht, hsize⟩ | ⟨ht, hsize⟩
  · rw [if_neg hsize, ht, Trail.assignmentsFrom_size]
    rfl
  · have hw := h.wellFormed.backtrack k
    have ha := Trail.appends_of_pushImplied hw ht
    rw [if_pos hsize, ha.assignmentsFrom hw (Nat.le_refl _), Trail.assignmentsFrom_size]
    rfl

/-- Each transition makes its changes. -/
theorem Move.run_changesTo (h : e.Running f config policy) (hm : e.Move s e' s') :
    e.trail.run (e.trail.changesTo e'.trail) = .ok e'.trail := by
  cases hm with
  | @propagate o q hq hshape hsettled =>
    obtain ⟨is, hchanges, hrun, -⟩ := hq.derives.exists_implications h.wellFormed
    exact hchanges ▸ hrun
  | @decide l memory t hm ht =>
    have ha := Trail.appends_of_pushDecision h.wellFormed ht
    show e.trail.run (e.trail.changesTo t) = .ok t
    rw [ha.changesTo h.wellFormed, Trail.run_singleton]
    exact ht
  | @learn r c d l k e' hc hf hl =>
    rw [hl.changesTo h]
    rcases hl.trail with ⟨ht, hsize⟩ | ⟨ht, hsize⟩
    · rw [if_neg hsize, Trail.run_singleton, ht]
      rfl
    · rw [if_pos hsize]
      show (e.trail.backtrack k).run [.imply l e.store.nextRef] = .ok e'.trail
      rw [Trail.run_singleton]
      exact ht
  | stop => exact congrArg e.trail.run (Trail.changesTo_self _)
  | fault => exact congrArg e.trail.run (Trail.changesTo_self _)
  | refute => exact congrArg e.trail.run (Trail.changesTo_self _)

/-- The changes of at most `steps` transitions. -/
def history : Nat → Engine σ → State → List Trail.Change
  | 0, _, _ => []
  | steps + 1, e, s =>
    if s.isFinal then []
    else e.trail.changesTo (e.step s).1.trail ++ history steps (e.step s).1 (e.step s).2

/-- The changes that a call of `Engine.solve` makes to the trail. -/
def changes (e : Engine σ) : List Trail.Change :=
  match e.restart with
  | .error _ => []
  | .ok e' => .reset :: e'.history e'.stepBound .propagating

end Engine

namespace Session

variable {σ : Type} {e e' : Engine σ} {s s' : State}

theorem history_of_isFinal (hs : s.isFinal = true) (steps : Nat) : e.history steps s = [] := by
  cases steps <;> simp [Engine.history, hs]

theorem history_succ (hs : s.isFinal = false) (steps : Nat) : e.history (steps + 1) s =
    e.trail.changesTo (e.step s).1.trail ++ (e.step s).1.history steps (e.step s).2 := by
  simp [Engine.history, hs]

/-- What transitions keep, with the changes so far, holds at the end of a run. -/
theorem history_induct {P : List Trail.Change → Engine σ → State → Prop} {steps : Nat}
    {cs : List Trail.Change} (h : e.run steps s = (e', s')) (hs' : s' ≠ .unfinished) (hP : P cs e s)
    (hstep : ∀ {cs e s}, s.isFinal = false → P cs e s →
      P (cs ++ e.trail.changesTo (e.step s).1.trail) (e.step s).1 (e.step s).2) :
    P (cs ++ e.history steps s) e' s' := by
  -- The changes so far and those of the steps that are left are the whole history.
  obtain ⟨hfinal, n, ds, hds, hP'⟩ := run_induct_steps
    (P := fun n e₁ s₁ => ∃ ds, cs ++ e.history steps s = ds ++ e₁.history n s₁ ∧ P ds e₁ s₁)
    h hs' ⟨cs, rfl, hP⟩ fun hs ⟨ds, hds, hP⟩ =>
      ⟨_, by rw [hds, history_succ hs, List.append_assoc], hstep hs hP⟩
  rw [hds, history_of_isFinal hfinal, List.append_nil]
  exact hP'

end Session

end ClauseLearning
