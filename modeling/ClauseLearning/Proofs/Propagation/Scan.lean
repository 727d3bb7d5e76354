import ClauseLearning.Proofs.Propagation.UnitStep

/-!
# Propagation by scanning is complete

`Propagated` says what every propagation comes to: some steps of unit propagation, after which each
clause is settled or the returned clause is falsified. `scan_spec`: a scan meets it, and its bound
on the passes is never reached.
-/

namespace ClauseLearning

namespace ClauseStore

variable {store : ClauseStore} {vs : Array Var} {c : Clause} {r : ClauseRef}

/-- Every literal of the store is over one of the variables. -/
def Over (store : ClauseStore) (vs : Array Var) : Prop :=
  ∀ c ∈ store.clauses, ∀ l ∈ c, l.var ∈ vs

theorem Over.mem (h : store.Over vs) (hr : store.get? r = some c) {l : Literal} (hl : l ∈ c) :
    l.var ∈ vs :=
  h c (mem_clauses_iff.mpr ⟨r, hr⟩) l hl

theorem mem_entries_iff : (r, c) ∈ store.entries ↔ store.get? r = some c := by
  obtain ⟨i⟩ := r
  simp only [entries, List.mem_map, Prod.mk.injEq, ClauseRef.mk.injEq, Prod.exists]
  constructor
  · rintro ⟨d, j, hd, rfl, rfl⟩
    have := List.mem_zipIdx_iff_getElem?.mp hd
    rwa [Array.getElem?_toList] at this
  · intro h
    refine ⟨c, i, List.mem_zipIdx_iff_getElem?.mpr ?_, rfl, rfl⟩
    rwa [Array.getElem?_toList]

end ClauseStore

namespace Progress

variable {store : ClauseStore} {p q : Progress} {o : Option ClauseRef}

/-- What a propagation from `p` comes to: with no conflict, every clause is settled. -/
structure Propagated (store : ClauseStore) (p : Progress) (o : Option ClauseRef) (q : Progress) :
    Prop where
  derives : p.Derives store q
  settled : o = none → ∀ c ∈ store.clauses, q.trail.Settles c
  falsified : ∀ {r}, o = some r → ∃ c, store.get? r = some c ∧ q.trail.Falsifies c

/-- What a pass over the entries `es` comes to: it derives literals, or finds every clause settled,
or ends at a falsified clause. -/
structure Passed (store : ClauseStore) (es : List (ClauseRef × Clause)) (p : Progress)
    (o : Option ClauseRef) (q : Progress) : Prop where
  watcher : q.watcher = p.watcher
  derives : p.Derives store q
  settled : o = none → q.trail.size = p.trail.size →
    q.trail = p.trail ∧ ∀ r c, (r, c) ∈ es → p.trail.Settles c
  falsified : ∀ {r}, o = some r → ∃ c, store.get? r = some c ∧ q.trail.Falsifies c

namespace Passed

variable {es : List (ClauseRef × Clause)} {r : ClauseRef} {c : Clause} {l : Literal} {p' : Progress}

/-- A settled clause is passed over. -/
theorem skip (h : Passed store es p o q) (hc : p.trail.Settles c) :
    Passed store ((r, c) :: es) p o q := by
  refine ⟨h.watcher, h.derives, fun ho hsize => ?_, h.falsified⟩
  obtain ⟨ht, hall⟩ := h.settled ho hsize
  refine ⟨ht, fun r' c' hmem => ?_⟩
  rcases List.mem_cons.mp hmem with heq | hmem
  · cases heq
    exact hc
  · exact hall r' c' hmem

/-- After a derived literal the trail is longer. -/
theorem imply (h : Passed store es p' o q) (hw : p'.trail.WellFormed)
    (hwatcher : p'.watcher = p.watcher) (hd : p.Derives store p')
    (ha : p.trail.Appends l (.clause r) p'.trail) : Passed store ((r, c) :: es) p o q := by
  refine ⟨h.watcher.trans hwatcher, hd.trans h.derives, fun _ hsize => ?_, h.falsified⟩
  have hle := (h.derives.continues hw).size_le
  have := ha.size_eq
  omega

end Passed

theorem scanPass_spec (hover : store.Over p.trail.vars) (hw : p.trail.WellFormed)
    {es : List (ClauseRef × Clause)} (hes : ∀ r c, (r, c) ∈ es → store.get? r = some c) :
    ∃ o q, scanPass es p = .ok (o, q) ∧ Passed store es p o q := by
  induction es generalizing p with
  | nil => exact ⟨none, p, rfl, rfl, .refl p, fun _ _ => ⟨rfl, by simp⟩, by simp⟩
  | cons e es ih =>
    obtain ⟨r, c⟩ := e
    have hr : store.get? r = some c := hes r c List.mem_cons_self
    have hes' : ∀ r c, (r, c) ∈ es → store.get? r = some c := fun r c h =>
      hes r c (List.mem_cons_of_mem _ h)
    obtain ⟨o, q, hpass, hpassed⟩ := ih hover hw hes'
    rw [scanPass]
    split
    · next l hl =>
      have hc := Clause.forces_of_status hl
      obtain ⟨p', hp', hwatcher, hd, ha⟩ := exists_imply hw (hover.mem hr hc.mem) hr hc
      have hw' := hd.wellFormed hw
      obtain ⟨o, q, hpass, hpassed⟩ := ih (ha.vars ▸ hover) hw' hes'
      exact ⟨o, q, by rw [hp']; exact hpass, hpassed.imply hw' hwatcher hd ha⟩
    · next hl =>
      refine ⟨some r, p, rfl, rfl, .refl p, by simp, fun hr' => ?_⟩
      cases hr'
      exact ⟨c, hr, Clause.falsifies_of_status hl⟩
    · next hl => exact ⟨o, q, hpass, hpassed.skip (Clause.settles_of_status (.inl hl))⟩
    · next hl => exact ⟨o, q, hpass, hpassed.skip (Clause.settles_of_status (.inr hl))⟩

/-- Enough passes reach the end of the propagation, and more change nothing. -/
theorem scanPasses_spec (passes : Nat) (hover : store.Over p.trail.vars) (hw : p.trail.WellFormed)
    (hpasses : p.trail.numVariables < p.trail.size + passes) :
    ∃ o q, (∀ more, scanPasses store (passes + more) p = .ok (o, q)) ∧ q.watcher = p.watcher ∧
      p.Propagated store o q := by
  induction passes generalizing p with
  | zero =>
    have : p.trail.size ≤ p.trail.numVariables := hw.size_le
    omega
  | succ passes ih =>
    obtain ⟨o, q, hpass, hpassed⟩ :=
      scanPass_spec hover hw fun r c => ClauseStore.mem_entries_iff.mp
    have hd := hpassed.derives
    have hw' := hd.wellFormed hw
    have hcont := hd.continues hw
    simp only [Nat.succ_add, scanPasses, hpass, bind, Except.bind]
    cases o with
    | some r => exact ⟨some r, q, fun _ => rfl, hpassed.watcher, hd, by simp, hpassed.falsified⟩
    | none =>
      simp only
      split
      · next hsize =>
        obtain ⟨ht, hall⟩ := hpassed.settled rfl hsize
        refine ⟨none, q, fun _ => rfl, hpassed.watcher, hd, fun _ c hc => ?_, by simp⟩
        obtain ⟨r, hr⟩ := ClauseStore.mem_clauses_iff.mp hc
        rw [ht]
        exact hall r c (ClauseStore.mem_entries_iff.mpr hr)
      · next hsize =>
        have hle := hcont.size_le
        have hvars : q.trail.numVariables = p.trail.numVariables := congrArg Array.size hcont.vars
        obtain ⟨o, q', hpasses', hwatcher, hprop⟩ := ih (hcont.vars ▸ hover) hw' (by omega)
        exact ⟨o, q', hpasses', hwatcher.trans hpassed.watcher, hd.trans hprop.derives,
          hprop.settled, hprop.falsified⟩

/-- A scan propagates completely and leaves the watches alone. -/
theorem scan_spec (hover : store.Over p.trail.vars) (hw : p.trail.WellFormed) :
    ∃ o q, p.scan store = .ok (o, q) ∧ q.watcher = p.watcher ∧ p.Propagated store o q := by
  obtain ⟨o, q, hq, hspec⟩ := scanPasses_spec (p.trail.numVariables + 1) hover hw (by omega)
  exact ⟨o, q, hq 0, hspec⟩

/-- The bound on the passes is never what ends a scan. -/
theorem scanPasses_add (hover : store.Over p.trail.vars) (hw : p.trail.WellFormed) (more : Nat) :
    scanPasses store (p.trail.numVariables + 1 + more) p = p.scan store := by
  obtain ⟨o, q, hq, -⟩ := scanPasses_spec (p.trail.numVariables + 1) hover hw (by omega)
  exact (hq more).trans (hq 0).symm

end Progress

end ClauseLearning
