import ClauseLearning.Proofs.Engine.Growth
import ClauseLearning.Proofs.Engine.History
import ClauseLearning.Proofs.Engine.Replay

/-!
# What the counters count

The counters of a run agree with its history, its log and the growth of the store. Implied
assignments are counted in two places: a propagation adds the growth of the trail, and a conflict
adds one for a learned unit clause, which is asserted without a record in the log. No assignment is
counted twice: an asserted literal stays true at the root level, so its clause never forces it again
(`Engine.Ledger`).

* `Ledger.propagate`, `Ledger.learn`: how implied assignments are accounted for.
* `Ledger.length_eq`: their number.
* `Engine.Tally`, `Tally.move`: all counters in the course of a run.
* `Session.counters_describe_run`: the counters after a call of `Engine.solve`.
-/

namespace ClauseLearning

/-! ## Decisions and implications -/

namespace Trail

/-- The literal of a decision. -/
def Change.decision? : Change → Option Literal
  | .decide l => some l
  | _ => none

/-- The literal of an implied assignment, and the reason. -/
def Change.implication? : Change → Option (Literal × ClauseRef)
  | .imply l r => some (l, r)
  | _ => none

/-- The literals that the changes decide, in order. -/
def decisionsOf (cs : List Change) : List Literal := cs.filterMap Change.decision?

/-- The literals that the changes imply, in order, with the reasons. -/
def implicationsOf (cs : List Change) : List (Literal × ClauseRef) :=
  cs.filterMap Change.implication?

variable (cs ds : List Change) (is : List Implication)

@[simp] theorem decisionsOf_append : decisionsOf (cs ++ ds) = decisionsOf cs ++ decisionsOf ds :=
  List.filterMap_append

@[simp] theorem implicationsOf_append :
    implicationsOf (cs ++ ds) = implicationsOf cs ++ implicationsOf ds :=
  List.filterMap_append

@[simp] theorem decisionsOf_map_change : decisionsOf (is.map Implication.change) = [] := by
  simp [decisionsOf, List.filterMap_map, Function.comp_def, Implication.change, Change.decision?]

@[simp] theorem implicationsOf_map_change :
    implicationsOf (is.map Implication.change) = is.map fun i => (i.literal, i.ref) := by
  simp [implicationsOf, List.filterMap_map, Function.comp_def, Implication.change,
    Change.implication?]

end Trail

/-- The literal of a record of an implied assignment, and the clause. -/
def Event.implication? : Event → Option (Literal × Clause)
  | .implied l c => some (l, c)
  | _ => none

/-- The implied assignments recorded so far, in order. -/
def Progress.implicationsMade (p : Progress) : List (Literal × Clause) :=
  p.events.filterMap Event.implication?

/-- A record adds the implied assignment that it is about, if any. -/
theorem Progress.implicationsMade_cons {p q : Progress} {ev : Event} (h : q.log = ev :: p.log) :
    q.implicationsMade = p.implicationsMade ++ ev.implication?.toList := by
  rw [implicationsMade, events, h, List.reverse_cons, List.filterMap_append, implicationsMade,
    events]
  cases hev : ev.implication? <;> simp [hev]

/-- The conflicts of a run that taught nothing, by the state it has come to. -/
def State.rootConflicts : State → Nat
  | .unsatisfied => 1
  | _ => 0

/-- The decisions of a run that could not be made, by the state it has come to. -/
def State.failedDecisions : State → Nat
  | .faulted _ => 1
  | _ => 0

/-! ## Learned unit clauses -/

namespace ClauseStore

variable {store : ClauseStore} {c : Clause} {l : Literal} {r : ClauseRef} {n : Nat}

/-- The literals of the unit clauses from place `n` on, in order, with the references. -/
def unitsFrom (store : ClauseStore) (n : Nat) : List (Literal × ClauseRef) :=
  (store.entries.drop n).filterMap fun (r, c) => c.unit?.map (·, r)

/-- The references of the unit clauses from place `n` on. -/
def unitRefsFrom (store : ClauseStore) (n : Nat) : List ClauseRef :=
  (store.unitsFrom n).map Prod.snd

theorem length_entries (store : ClauseStore) : store.entries.length = store.size := by
  simp [entries, size]

theorem map_snd_entries (store : ClauseStore) :
    store.entries.map Prod.snd = store.clauses.toList := by
  rw [entries, List.map_map]
  exact List.zipIdx_map_fst 0 _

theorem entries_push (store : ClauseStore) (c : Clause) :
    (store.push c).entries = store.entries ++ [(store.nextRef, c)] := by
  simp [entries, push, nextRef, size, List.zipIdx_append]

/-- An appended unit clause comes last. -/
theorem unitsFrom_push (hn : n ≤ store.size) (c : Clause) :
    (store.push c).unitsFrom n =
      store.unitsFrom n ++ (c.unit?.map (·, store.nextRef)).toList := by
  have hle : n ≤ store.entries.length := store.length_entries.symm ▸ hn
  rw [unitsFrom, entries_push, List.drop_append_of_le_length hle, List.filterMap_append]
  cases hc : c.unit? <;> simp [unitsFrom, hc]

theorem exists_of_mem_unitsFrom (h : (l, r) ∈ store.unitsFrom n) :
    ∃ c, store.get? r = some c ∧ l ∈ c := by
  obtain ⟨⟨r', c⟩, hmem, hunit⟩ := List.mem_filterMap.mp h
  obtain ⟨m, hm, heq⟩ := Option.map_eq_some_iff.mp hunit
  cases heq
  exact ⟨c, mem_entries_iff.mp (List.mem_of_mem_drop hmem), (Clause.mem_of_unit? hm l).mpr rfl⟩

/-- There are as many as clauses of one literal. -/
theorem length_unitsFrom (store : ClauseStore) (n : Nat) :
    (store.unitsFrom n).length = (store.clauses.toList.drop n).countP (·.size = 1) := by
  have hunit : ∀ c : Clause, c.unit?.isSome = decide (c.size = 1) := by
    intro c
    by_cases hsize : c.size = 1
    · obtain ⟨l, hl⟩ := Clause.exists_literal (c := c) (i := 0) (by omega)
      simp [Clause.unit?_of_size_eq_one hsize (Clause.mem_of_getElem? hl), hsize]
    · simp [Clause.unit?_of_size_ne_one hsize, hsize]
  rw [unitsFrom, List.length_filterMap_eq_countP, ← map_snd_entries, ← List.map_drop,
    List.countP_map]
  exact List.countP_congr fun x _ => by simp [hunit]

end ClauseStore

namespace Engine

/-! ## Implied assignments -/

/-- How the implied assignments `is` of a run that began with `n` clauses are accounted for: each
unit clause that it learned was asserted once, at the root level, and each other assignment has its
record in the log. -/
structure Ledger (n : Nat) (store : ClauseStore) (is : List (Literal × ClauseRef)) (p : Progress) :
    Prop where
  index_lt : ∀ i ∈ is, i.2.index < store.size
  asserted : is.filter (·.2 ∈ store.unitRefsFrom n) = store.unitsFrom n
  logged : List.Forall₂ (fun i j => j.1 = i.1 ∧ store.get? i.2 = some j.2)
    (is.filter (·.2 ∉ store.unitRefsFrom n)) p.implicationsMade
  root : ∀ i ∈ store.unitsFrom n, ∃ s, p.trail.slot i.1.var = some s ∧ s.literal = i.1 ∧
    s.level = 0 ∧ s.reason = .clause i.2

namespace Ledger

variable {n : Nat} {store : ClauseStore} {is js : List (Literal × ClauseRef)} {p q : Progress}
  {d : Clause}

theorem start (hlog : p.log = []) : Ledger store.size store [] p := by
  have hnone : store.unitsFrom store.size = [] := by
    rw [ClauseStore.unitsFrom, ← ClauseStore.length_entries, List.drop_length, List.filterMap_nil]
  refine ⟨by simp, ?_, ?_, ?_⟩
  · rw [hnone, List.filter_nil]
  · simp [Progress.implicationsMade, Progress.events, hlog]
  · simp [hnone]

/-- Other changes of the trail and the log leave the accounts as they are. -/
theorem congr (h : Ledger n store is p) (hmade : q.implicationsMade = p.implicationsMade)
    (hold : ∀ {v s}, p.trail.slot v = some s → q.trail.slot v = some s) : Ledger n store is q where
  index_lt := h.index_lt
  asserted := h.asserted
  logged := hmade ▸ h.logged
  root i hi := by
    obtain ⟨s, hs, hroot⟩ := h.root i hi
    exact ⟨s, hold hs, hroot⟩

/-- A propagation logs what it assigns. Learned unit clauses are true already and force nothing. -/
theorem propagate (h : Ledger n store is p) (hd : p.Derives store q) (hw : p.trail.WellFormed) :
    Ledger n store (is ++ Trail.implicationsOf (p.trail.changesTo q.trail)) q := by
  obtain ⟨ks, hchanges, -, -, hevents, hks⟩ := hd.exists_implications hw
  have hmade : q.implicationsMade = p.implicationsMade ++ ks.map fun k => (k.literal, k.clause) := by
    simp [Progress.implicationsMade, hevents, List.filterMap_append, List.filterMap_map,
      Function.comp_def, Implication.event, Event.implication?]
  have hfresh : ∀ i ∈ ks.map fun k => (k.literal, k.ref), i.2 ∉ store.unitRefsFrom n := by
    rintro i hi hmem
    obtain ⟨k, hk, rfl⟩ := List.mem_map.mp hi
    obtain ⟨⟨l, r⟩, hunit, rfl⟩ := List.mem_map.mp hmem
    obtain ⟨s, hs, hlit, -⟩ := h.root _ hunit
    obtain ⟨c, hc, hl⟩ := ClauseStore.exists_of_mem_unitsFrom hunit
    obtain ⟨hin, hfree⟩ := hks k hk
    obtain rfl := Option.some.inj (hin.symm.trans hc)
    exact hfree l hl (Trail.value_eq_true_iff.mpr ⟨s, hs, hlit⟩)
  rw [hchanges, Trail.implicationsOf_map_change]
  refine ⟨?_, ?_, ?_, ?_⟩
  · intro i hi
    rcases List.mem_append.mp hi with hi | hi
    · exact h.index_lt i hi
    · obtain ⟨k, hk, rfl⟩ := List.mem_map.mp hi
      exact ClauseStore.index_lt_of_get? (hks k hk).1
  · have hin : (ks.map fun k => (k.literal, k.ref)).filter (·.2 ∈ store.unitRefsFrom n) = [] :=
      List.filter_eq_nil_iff.mpr fun i hi => by simpa using hfresh i hi
    rw [List.filter_append, h.asserted, hin, List.append_nil]
  · have hout : (ks.map fun k => (k.literal, k.ref)).filter (·.2 ∉ store.unitRefsFrom n) =
        ks.map fun k => (k.literal, k.ref) :=
      List.filter_eq_self.mpr fun i hi => decide_eq_true (hfresh i hi)
    rw [List.filter_append, hout, hmade]
    refine List.rel_append h.logged ?_
    rw [List.forall₂_map_left_iff, List.forall₂_map_right_iff, List.forall₂_same]
    exact fun k hk => ⟨rfl, (hks k hk).1⟩
  · exact (h.congr (q := ⟨q.trail, p.watcher, p.log⟩) rfl (hd.continues hw).slot_old).root

/-- A learned clause is appended, and asserted if it is a unit clause. -/
theorem push (h : Ledger n store is p)
    (hunits : (store.push d).unitsFrom n = store.unitsFrom n ++ js)
    (hjs : ∀ j ∈ js, j.2 = store.nextRef) (hmade : q.implicationsMade = p.implicationsMade)
    (hroot : ∀ i ∈ store.unitsFrom n ++ js, ∃ s, q.trail.slot i.1.var = some s ∧
      s.literal = i.1 ∧ s.level = 0 ∧ s.reason = .clause i.2) :
    Ledger n (store.push d) (is ++ js) q := by
  have hrefs : (store.push d).unitRefsFrom n = store.unitRefsFrom n ++ js.map Prod.snd := by
    rw [ClauseStore.unitRefsFrom, hunits, List.map_append, ClauseStore.unitRefsFrom]
  -- The new reference is that of no earlier assignment.
  have hold : ∀ i ∈ is, i.2 ∈ (store.push d).unitRefsFrom n ↔ i.2 ∈ store.unitRefsFrom n := by
    intro i hi
    rw [hrefs, List.mem_append]
    refine ⟨fun hmem => hmem.resolve_right fun hmem => ?_, .inl⟩
    obtain ⟨j, hj, heq⟩ := List.mem_map.mp hmem
    have hlt := h.index_lt i hi
    rw [← heq, hjs j hj] at hlt
    exact Nat.lt_irrefl _ hlt
  have hnew : ∀ j ∈ js, j.2 ∈ (store.push d).unitRefsFrom n := fun j hj => by
    rw [hrefs]
    exact List.mem_append_right _ (List.mem_map_of_mem hj)
  refine ⟨fun i hi => ?_, ?_, ?_, hunits ▸ hroot⟩
  · rw [ClauseStore.size_push]
    rcases List.mem_append.mp hi with hi | hi
    · exact Nat.lt_succ_of_lt (h.index_lt i hi)
    · rw [hjs i hi]
      exact Nat.lt_succ_self _
  · have hin : is.filter (·.2 ∈ (store.push d).unitRefsFrom n) = store.unitsFrom n :=
      (List.filter_congr fun i hi => decide_eq_decide.mpr (hold i hi)).trans h.asserted
    have hall : js.filter (·.2 ∈ (store.push d).unitRefsFrom n) = js :=
      List.filter_eq_self.mpr fun j hj => decide_eq_true (hnew j hj)
    rw [List.filter_append, hin, hall, hunits]
  · have hout : is.filter (·.2 ∉ (store.push d).unitRefsFrom n) =
        is.filter (·.2 ∉ store.unitRefsFrom n) :=
      List.filter_congr fun i hi => decide_eq_decide.mpr (not_congr (hold i hi))
    have hnone : js.filter (·.2 ∉ (store.push d).unitRefsFrom n) = [] :=
      List.filter_eq_nil_iff.mpr fun j hj => by simpa using hnew j hj
    rw [List.filter_append, hout, hnone, List.append_nil, hmade]
    exact h.logged.imp fun i j hij => ⟨hij.1, ClauseStore.get?_push hij.2⟩

/-- The implied assignments are those in the log and one for each learned unit clause. -/
theorem length_eq (h : Ledger n store is p) : is.length =
    p.implicationsMade.length + (store.clauses.toList.drop n).countP (·.size = 1) := by
  rw [← ClauseStore.length_unitsFrom, ← h.asserted, ← h.logged.length_eq,
    List.length_eq_length_filter_add (fun i => decide (i.2 ∈ store.unitRefsFrom n)), Nat.add_comm]
  simp only [decide_not]

end Ledger

variable {σ : Type} {f : Formula} {config : Config} {policy : Policy σ} {e e' : Engine σ}
  {s s' : State} {t : Trail} {c d : Clause} {l : Literal} {k n : Nat}
  {is : List (Literal × ClauseRef)} {cs : List Trail.Change}

theorem Ledger.learn (hledger : Ledger n e.store is e.toProgress) (h : e.Running f config policy)
    (hn : n ≤ e.store.size) (hl : e.Learns c d l k e') :
    Ledger n e'.store (is ++ Trail.implicationsOf (e.trail.changesTo e'.trail)) e'.toProgress := by
  have hstore : e'.store = e.store.push d := by rw [hl.engine]
  have hlog : e'.log = .conflict c e.trail.level d k :: e.log := by rw [hl.engine]
  have hmade : e'.implicationsMade = e.implicationsMade :=
    (Progress.implicationsMade_cons hlog).trans (List.append_nil _)
  have hjs : Trail.implicationsOf (e.trail.changesTo e'.trail) =
      (d.unit?.map (·, e.store.nextRef)).toList := by
    rw [hl.changesTo h]
    by_cases hsize : d.size = 1
    · rw [if_pos hsize, Clause.unit?_of_size_eq_one hsize hl.returns.mem]
      rfl
    · rw [if_neg hsize, Clause.unit?_of_size_ne_one hsize]
      rfl
  rw [hstore, hjs]
  refine hledger.push (ClauseStore.unitsFrom_push hn d) (fun j hj => ?_) hmade fun i hi => ?_
  · obtain ⟨m, -, rfl⟩ := Option.map_eq_some_iff.mp (Option.mem_toList.mp hj)
    rfl
  rcases List.mem_append.mp hi with hi | hi
  · -- What was asserted before belongs to the root level, which is not undone.
    obtain ⟨s, hs, hlit, hlevel, hreason⟩ := hledger.root i hi
    have hback := (Trail.slot_backtrack_eq_some_iff h.wellFormed (k := k)).mpr
      ⟨hs, hlevel ▸ Nat.zero_le k⟩
    exact ⟨s, (hl.trail_spec h).1.slot_old hback, hlit, hlevel, hreason⟩
  · obtain ⟨m, hm, rfl⟩ := Option.map_eq_some_iff.mp (Option.mem_toList.mp hi)
    have hsize : d.size = 1 := Classical.byContradiction fun hsize => by
      rw [Clause.unit?_of_size_ne_one hsize] at hm
      cases hm
    rw [Clause.unit?_of_size_eq_one hsize hl.returns.mem] at hm
    obtain rfl := Option.some.inj hm
    rcases hl.trail with ⟨-, hne⟩ | ⟨ht, -⟩
    · exact absurd hsize hne
    have ha := Trail.appends_of_pushImplied (h.wellFormed.backtrack k) ht
    refine ⟨_, ha.slot_self, rfl, ?_, rfl⟩
    show e'.trail.level = 0
    rw [hl.level_eq h]
    exact hl.returns.highest.elim And.right fun hother => absurd hsize hother.1

/-! ## The counters of a run -/

/-- The counters of a run that began with `n` clauses and the trail `t`, made the changes `cs` and
came to the state `s`. -/
structure Tally (n : Nat) (t : Trail) (cs : List Trail.Change) (e : Engine σ) (s : State) :
    Prop where
  run : t.run cs = .ok e.trail
  learned : e.store.size = n + e.stats.learned
  conflicts : e.stats.conflicts = e.stats.learned + s.rootConflicts
  made : e.decisionsMade = Trail.decisionsOf cs
  decisions : e.stats.decisions = e.decisionsMade.length + s.failedDecisions
  propagations : e.stats.propagations = (Trail.implicationsOf cs).length
  ledger : Ledger n e.store (Trail.implicationsOf cs) e.toProgress

namespace Tally

theorem restart (h : e.Sound f config policy) (hr : e.restart = .ok e') :
    Tally e.store.size e.trail [.reset] e' .propagating := by
  obtain ⟨w, -, rfl⟩ := h.restart_eq hr
  refine ⟨?_, rfl, rfl, rfl, rfl, rfl, .start rfl⟩
  rw [Trail.run_singleton, Trail.Change.apply, Trail.reset_eq_empty h.wellFormed]

theorem propagate {o : Option ClauseRef} {q : Progress} (ht : Tally n t cs e .propagating)
    (h : e.Running f config policy) (hq : e.toProgress.Derives e.store q)
    (hrun : t.run (cs ++ e.trail.changesTo q.trail) = .ok q.trail) :
    Tally n t (cs ++ e.trail.changesTo q.trail)
      { e with toProgress := q, stats := e.countPropagations q } (e.afterPropagation o q) := by
  obtain ⟨is, hchanges, -, hsize, -⟩ := hq.exists_implications h.wellFormed
  have hmade : q.decisionsMade = e.decisionsMade := hq.decisionsMade h.wellFormed
  have hstate : (e.afterPropagation o q).rootConflicts = 0 ∧
      (e.afterPropagation o q).failedDecisions = 0 := by
    cases o with
    | some r => exact ⟨rfl, rfl⟩
    | none =>
      simp only [afterPropagation]
      split <;> exact ⟨rfl, rfl⟩
  refine ⟨hrun, ht.learned, ?_, ?_, ?_, ?_, ?_⟩
  · rw [hstate.1]
    exact ht.conflicts
  · rw [hchanges, Trail.decisionsOf_append, Trail.decisionsOf_map_change, List.append_nil, ← ht.made]
    exact hmade
  · rw [hstate.2]
    exact ht.decisions.trans (congrArg List.length hmade.symm)
  · rw [hchanges, Trail.implicationsOf_append, Trail.implicationsOf_map_change, List.length_append,
      List.length_map, ← ht.propagations]
    show e.stats.propagations + (q.trail.size - e.trail.size) = _
    omega
  · rw [Trail.implicationsOf_append]
    exact ht.ledger.propagate hq h.wellFormed

theorem decide {memory : σ} {t' : Trail} (ht : Tally n t cs e .deciding)
    (h : e.Running f config policy) (hp : e.trail.pushDecision l = .ok t')
    (hrun : t.run (cs ++ e.trail.changesTo t') = .ok t') :
    Tally n t (cs ++ e.trail.changesTo t') (e.decided l memory t') .propagating := by
  have ha := Trail.appends_of_pushDecision h.wellFormed hp
  have hchanges : e.trail.changesTo t' = [.decide l] := ha.changesTo h.wellFormed
  have hlog : (e.decided l memory t').log = .decision l t'.level :: e.log := rfl
  have hmade := Progress.decisionsMade_cons hlog
  have hlogged := (Progress.implicationsMade_cons hlog).trans (List.append_nil _)
  have hnone : Trail.implicationsOf (cs ++ [.decide l]) = Trail.implicationsOf cs := by
    simp [Trail.implicationsOf, Trail.Change.implication?]
  rw [hchanges] at hrun ⊢
  refine ⟨hrun, ht.learned, ht.conflicts, ?_, ?_, ?_, ?_⟩
  · rw [hmade, ht.made, Trail.decisionsOf_append]
    rfl
  · rw [hmade, List.length_append]
    exact congrArg (· + 1) ht.decisions
  · rw [hnone]
    exact ht.propagations
  · rw [hnone]
    exact ht.ledger.congr hlogged ha.slot_old

theorem learn {r : ClauseRef} (ht : Tally n t cs e (.conflict r)) (h : e.Running f config policy)
    (hl : e.Learns c d l k e') (hrun : t.run (cs ++ e.trail.changesTo e'.trail) = .ok e'.trail) :
    Tally n t (cs ++ e.trail.changesTo e'.trail) e' .propagating := by
  have hstats : e'.stats = e.countLearned k e'.trail := by rw [hl.engine]
  have hstore : e'.store = e.store.push d := by rw [hl.engine]
  have hlog : e'.log = .conflict c e.trail.level d k :: e.log := by rw [hl.engine]
  have hmade : e'.decisionsMade = e.decisionsMade :=
    (Progress.decisionsMade_cons hlog).trans (List.append_nil _)
  have hchanges := hl.changesTo h
  have hnone : Trail.decisionsOf (e.trail.changesTo e'.trail) = [] := by
    rw [hchanges]
    split <;> rfl
  have hsize : e'.trail.size - (e.trail.backtrack k).size =
      (Trail.implicationsOf (e.trail.changesTo e'.trail)).length := by
    rw [hchanges]
    rcases hl.trail with ⟨heq, hne⟩ | ⟨hp, hone⟩
    · rw [if_neg hne, heq, Nat.sub_self]
      rfl
    · rw [if_pos hone, (Trail.appends_of_pushImplied (h.wellFormed.backtrack k) hp).size_eq,
        Nat.add_sub_cancel_left]
      rfl
  have hlearned := ht.learned
  have hconflicts := ht.conflicts
  refine ⟨hrun, ?_, ?_, ?_, ?_, ?_, ?_⟩
  · rw [hstore, hstats, ClauseStore.size_push, hlearned, Nat.add_assoc]
    rfl
  · rw [hstats]
    exact congrArg (· + 1) hconflicts
  · rw [hmade, ht.made, Trail.decisionsOf_append, hnone, List.append_nil]
  · rw [hmade, hstats]
    exact ht.decisions
  · rw [hstats, Trail.implicationsOf_append, List.length_append, ← hsize, ← ht.propagations]
    rfl
  · rw [Trail.implicationsOf_append]
    exact ht.ledger.learn h (hlearned ▸ Nat.le_add_right _ _) hl

/-- A transition changes the counters by what it does. -/
theorem move (ht : Tally n t cs e s) (h : e.Running f config policy) (hm : e.Move s e' s') :
    Tally n t (cs ++ e.trail.changesTo e'.trail) e' s' := by
  have hrun : t.run (cs ++ e.trail.changesTo e'.trail) = .ok e'.trail := by
    rw [Trail.run_append ht.run]
    exact hm.run_changesTo h
  have hself : cs ++ e.trail.changesTo e.trail = cs := by
    rw [Trail.changesTo_self, List.append_nil]
  cases hm with
  | propagate hq => exact ht.propagate h hq.derives hrun
  | decide hm hp => exact ht.decide h hp hrun
  | learn hc hf hl => exact ht.learn h hl hrun
  | stop =>
    rw [hself]
    exact ⟨ht.run, ht.learned, ht.conflicts, ht.made, ht.decisions, ht.propagations, ht.ledger⟩
  | fault =>
    rw [hself]
    exact ⟨ht.run, ht.learned, ht.conflicts, ht.made, congrArg (· + 1) ht.decisions,
      ht.propagations, ht.ledger⟩
  | @refute r c hc hf hl =>
    rw [hself]
    have hlog : ({ e.toProgress with log := .rootConflict c :: e.log } : Progress).log =
        .rootConflict c :: e.log := rfl
    have hmade := (Progress.decisionsMade_cons hlog).trans (List.append_nil _)
    have hlogged := (Progress.implicationsMade_cons hlog).trans (List.append_nil _)
    exact ⟨ht.run, ht.learned, congrArg (· + 1) ht.conflicts, hmade.trans ht.made,
      ht.decisions.trans (congrArg List.length hmade.symm), ht.propagations,
      ht.ledger.congr hlogged id⟩

/-- The verdict is logged last. -/
theorem conclude (ht : Tally n t cs e s) (sat : Bool) : Tally n t cs (e.conclude sat) s := by
  have hlog : (e.conclude sat).log =
      .verdict sat e.stats.decisions e.stats.conflicts :: e.log := rfl
  have hmade := (Progress.decisionsMade_cons hlog).trans (List.append_nil _)
  have hlogged := (Progress.implicationsMade_cons hlog).trans (List.append_nil _)
  exact ⟨ht.run, ht.learned, ht.conflicts, hmade.trans ht.made,
    ht.decisions.trans (congrArg (List.length · + _) hmade.symm), ht.propagations,
    ht.ledger.congr hlogged id⟩

theorem finish (ht : Tally n t cs e s) : Tally n t cs (e.finish s) s := by
  cases s with
  | satisfied => exact ht.conclude true
  | unsatisfied => exact ht.conclude false
  | propagating => exact ht
  | conflict r => exact ht
  | deciding => exact ht
  | faulted x => exact ht
  | unfinished => exact ht

end Tally

end Engine

namespace Session

variable {σ : Type} {f : Formula} {config : Config} {policy : Policy σ} {memory : σ} {e : Engine σ}

/-- At the end of a call the counters are those of its history. -/
theorem exists_tally (h : Reached f config policy memory ⟨e, none⟩) :
    ∃ s, e.solve.1 = verdict s ∧ Engine.Tally e.store.size e.trail e.changes e.solve.2 s := by
  obtain ⟨e₁, e', s, hr, hrun, hsolve, -, hne⟩ := exists_run h
  obtain ⟨-, htally⟩ := history_induct
    (P := fun cs e₂ s => Reached f config policy memory ⟨e₂, some s⟩ ∧
      Engine.Tally e.store.size e.trail cs e₂ s)
    hrun hne ⟨h.tail (.start hr), .restart h.invariant hr⟩ fun {cs e₂ s} hs ⟨h₂, ht⟩ =>
      ⟨h₂.tail (.step hs rfl),
        ht.move h₂.invariant.1 (h₂.invariant.1.move h₂.invariant.2 hs rfl)⟩
  have hchanges : e.changes = [.reset] ++ e₁.history e₁.stepBound .propagating := by
    simp only [Engine.changes, hr, List.cons_append, List.nil_append]
  rw [hsolve]
  exact ⟨s, rfl, hchanges ▸ htally.finish⟩

/-- An answer tells how the run ended. -/
theorem eq_of_verdict {s : State} (hv : verdict s = .sat ∨ verdict s = .unsat) :
    s = .satisfied ∧ verdict s = .sat ∨ s = .unsatisfied ∧ verdict s = .unsat := by
  cases s with
  | satisfied => exact .inl ⟨rfl, rfl⟩
  | unsatisfied => exact .inr ⟨rfl, rfl⟩
  | propagating => rcases hv with hv | hv <;> cases hv
  | conflict r => rcases hv with hv | hv <;> cases hv
  | deciding => rcases hv with hv | hv <;> cases hv
  | faulted x => rcases hv with hv | hv <;> cases hv
  | unfinished => rcases hv with hv | hv <;> cases hv

/-- After a call that answers, the counters describe this call and no other, whatever happened to the
engine before. The changes of the call lead from the trail before it to the trail after it. As many
clauses were learned as were appended to the store; each conflict taught one of them, but for the
last conflict of a refutation. Each decision among the changes was counted and logged once, also if
it was undone. Each implied assignment was counted once: it is in the log, or it is the only
assignment of a learned unit clause, at the root level. -/
theorem counters_describe_run (h : Reached f config policy memory ⟨e, none⟩)
    (hv : e.solve.1 = .sat ∨ e.solve.1 = .unsat) :
    e.trail.run e.changes = .ok e.solve.2.trail ∧
      ∃ new, e.solve.2.store.clauses.toList = e.store.clauses.toList ++ new ∧
        e.solve.2.stats.learned = new.length ∧
        (e.solve.1 = .sat → e.solve.2.stats.conflicts = new.length) ∧
        (e.solve.1 = .unsat → e.solve.2.stats.conflicts = new.length + 1) ∧
        e.solve.2.stats.decisions = (Trail.decisionsOf e.changes).length ∧
        e.solve.2.decisionsMade = Trail.decisionsOf e.changes ∧
        e.solve.2.stats.propagations = (Trail.implicationsOf e.changes).length ∧
        e.solve.2.stats.propagations =
          e.solve.2.implicationsMade.length + new.countP (·.size = 1) ∧
        Engine.Ledger e.store.size e.solve.2.store (Trail.implicationsOf e.changes)
          e.solve.2.toProgress := by
  have hreaches : Reaches ⟨e, none⟩ ⟨e.solve.2, none⟩ := reaches_solve <| by
    rcases hv with hv | hv <;> rw [hv] <;> exact Verdict.noConfusion
  obtain ⟨new, hnew⟩ := store_reaches h.invariant hreaches
  have hstore : e.solve.2.store.clauses.toList = e.store.clauses.toList ++ new := hnew.symm
  obtain ⟨s, hs, ht⟩ := exists_tally h
  have hlearned : e.solve.2.stats.learned = new.length := by
    have hsize : e.solve.2.store.size = e.store.size + new.length := by
      simpa [ClauseStore.size] using congrArg List.length hstore
    have := ht.learned
    omega
  have hlength := ht.ledger.length_eq
  rw [hstore, ClauseStore.size, ← Array.length_toList, List.drop_left] at hlength
  have hconflicts := hlearned ▸ ht.conflicts
  have hdecisions := ht.made ▸ ht.decisions
  refine ⟨ht.run, new, hstore, hlearned, ?_⟩
  rw [hs] at hv ⊢
  rcases eq_of_verdict hv with ⟨rfl, hsat⟩ | ⟨rfl, hunsat⟩
  · exact ⟨fun _ => hconflicts, fun hne => Verdict.noConfusion (hsat.symm.trans hne), hdecisions,
      ht.made, ht.propagations, ht.propagations.trans hlength, ht.ledger⟩
  · exact ⟨fun hne => Verdict.noConfusion (hunsat.symm.trans hne), fun _ => hconflicts, hdecisions,
      ht.made, ht.propagations, ht.propagations.trans hlength, ht.ledger⟩

/-- The first call on `notFirst` undoes its first decision. The learned unit clause is asserted
without a record. -/
theorem notFirst_counted :
    let e := Engine.ofFormula notFirst {}
    let x : Nat → Bool → Literal := fun n b => ⟨⟨n + 1, n.succ_pos⟩, b⟩
    e.solve.1 = .sat ∧ e.changes = [.reset, .decide (x 0 true), .imply (x 1 true) ⟨0⟩, .backtrack 0,
        .imply (x 0 false) ⟨2⟩, .decide (x 1 true)] ∧
      e.solve.2.stats.decisions = 2 ∧ e.solve.2.stats.propagations = 2 ∧
      e.solve.2.implicationsMade.map Prod.fst = [x 1 true] ∧
      Engine.Ledger 2 e.solve.2.store (Trail.implicationsOf e.changes) e.solve.2.toProgress := by
  intro e x
  have hsat : e.solve.1 = .sat := by decide +kernel
  have hchanges : e.changes = [.reset, .decide (x 0 true), .imply (x 1 true) ⟨0⟩, .backtrack 0,
      .imply (x 0 false) ⟨2⟩, .decide (x 1 true)] := by decide +kernel
  have hreached : Reached notFirst {} (Phase.policy .positive) false ⟨e, none⟩ := .refl
  obtain ⟨-, new, -, -, -, -, hdecisions, -, hpropagations, -, hledger⟩ :=
    counters_describe_run hreached (.inl hsat)
  rw [hchanges] at hdecisions hpropagations
  exact ⟨hsat, hchanges, hdecisions, hpropagations, by decide +kernel, hledger⟩

end Session

end ClauseLearning
