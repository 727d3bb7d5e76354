import ClauseLearning.Proofs.Propagation.Lists

/-!
# Where a clause is listed

Consistent tables list a clause under its watched literals and nowhere else, so all lists together
hold it twice; once if it has one literal only, and never if it has none.

* `Watcher.Exact`: what the lists hold, literal by literal and clause by clause.
* `Watcher.count_entries`: how often all lists together hold a clause.
* `Progress.Consistent.exact`: consistent tables are exact.
* `Progress.Consistent.perm_entries`: a store has its entries, up to their order.
-/

namespace ClauseLearning

/-- The watched literals, without repetition: two of them, unless the clause has fewer. -/
theorem Watch.Valid.exists_literals {x : Watch} {c : Clause} (hvalid : x.Valid c) :
    ∃ ls : List Literal, ls.Nodup ∧ ls.length = min c.size 2 ∧ ∀ l, l ∈ ls ↔ x.Has c l := by
  by_cases hc : c.size = 0
  · have hnone : ∀ k : Nat, c.literals[k]? = none := fun k =>
      Array.getElem?_eq_none (Nat.le_trans (Nat.le_of_eq hc) (Nat.zero_le k))
    exact ⟨[], .nil, by simp [hc], fun l => by simp [Has, hnone]⟩
  obtain ⟨hfirst, hsecond, hsize⟩ := hvalid hc
  obtain ⟨l₁, h₁⟩ := Clause.exists_literal hfirst
  obtain ⟨l₂, h₂⟩ := Clause.exists_literal hsecond
  by_cases heq : x.first = x.second
  · refine ⟨[l₁], List.nodup_singleton l₁, by simp [hsize heq], fun l => ?_⟩
    simp only [List.mem_singleton, Has, ← heq, h₁, Option.some.injEq, or_self, eq_comm]
  · have hne : l₁ ≠ l₂ := Clause.literal_ne h₁ h₂ heq
    have htwo : 2 ≤ c.size := by omega
    refine ⟨[l₁, l₂], by simp [hne], by simp [htwo], fun l => ?_⟩
    simp only [List.mem_cons, List.not_mem_nil, or_false, Has, h₁, h₂, Option.some.injEq, eq_comm]

namespace Watcher

variable {store : ClauseStore} {t : Trail} {w w' : Watcher} {c : Clause} {r : ClauseRef}

/-- The entries of all lists. -/
def entries (w : Watcher) : List ClauseRef := w.lists.toList.flatMap Array.toList

/-- Every clause of the store stands once in the list of each literal that it watches, and nowhere
else. -/
structure Exact (w : Watcher) (store : ClauseStore) (t : Trail) : Prop where
  /-- Two positions of a clause are watched, of a clause of one literal the only one. -/
  positions : ∀ ⦃r c⦄, store.get? r = some c → ∃ x, w.watches[r.index]? = some x ∧
    (2 ≤ c.size → x.first ≠ x.second ∧ x.first < c.size ∧ x.second < c.size) ∧
    (c.size = 1 → x.first = 0 ∧ x.second = 0)
  /-- Each literal has a list. It holds the clauses that watch the literal, each of them once. -/
  list : ∀ ⦃l⦄, l.var ∈ t.vars → ∃ n refs, t.code l = some n ∧ w.lists[n]? = some refs ∧
    refs.toList.Nodup ∧ ∀ r, r ∈ refs ↔ w.Watching store r l
  /-- No two literals share a list. -/
  apart : ∀ ⦃l m n⦄, t.code l = some n → t.code m = some n → l = m
  /-- Every list is that of a literal. -/
  owned : ∀ n < w.lists.size, ∃ l, l.var ∈ t.vars ∧ t.code l = some n
  /-- All lists together hold a clause as often as it has watched literals. -/
  total : ∀ ⦃r c⦄, store.get? r = some c → w.entries.count r = min c.size 2
  /-- They hold nothing but clauses of the store. -/
  known : ∀ ⦃r⦄, r ∈ w.entries → ∃ c, store.get? r = some c

theorem mem_entries_iff :
    r ∈ w.entries ↔ ∃ (n : Nat) (refs : Array ClauseRef), w.lists[n]? = some refs ∧ r ∈ refs := by
  simp only [entries, List.mem_flatMap, Array.mem_toList_iff]
  constructor
  · rintro ⟨refs, hrefs, hr⟩
    obtain ⟨n, hn⟩ := Array.mem_iff_getElem?.mp hrefs
    exact ⟨n, refs, hn, hr⟩
  · rintro ⟨n, refs, hn, hr⟩
    exact ⟨refs, Array.mem_of_getElem? hn, hr⟩

/-- Where no list holds an entry twice, it is held as often as there are lists that hold it. -/
theorem count_flatMap_toList {lists : List (Array ClauseRef)}
    (hnodup : ∀ refs ∈ lists, refs.toList.Nodup) (r : ClauseRef) :
    (lists.flatMap Array.toList).count r = lists.countP fun refs => r ∈ refs := by
  induction lists with
  | nil => rfl
  | cons refs lists ih =>
    obtain ⟨hrefs, hlists⟩ := List.forall_mem_cons.mp hnodup
    rw [List.flatMap_cons, List.count_append, List.countP_cons, ih hlists, hrefs.count,
      Nat.add_comm]
    simp only [Array.mem_toList_iff, decide_eq_true_eq]

section Count

variable (hsorted : Ascending.Sorted Var.id t.vars.toList) (hover : store.Over t.vars)
  (hshape : w.Shape store t.vars) (hlisted : w.Listed store t)

include hsorted hshape hlisted

/-- What is listed anywhere watches the literal of that list. -/
theorem exists_watching (hr : r ∈ w.entries) : ∃ l, w.Watching store r l := by
  obtain ⟨n, refs, hn, hmem⟩ := mem_entries_iff.mp hr
  obtain ⟨hlt, -⟩ := Array.getElem?_eq_some_iff.mp hn
  rw [hshape.lists_size] at hlt
  obtain ⟨l, hl⟩ := Trail.exists_code_eq hsorted hlt
  exact ⟨l, (hlisted.mem_iff hl hn).mp hmem⟩

include hover

/-- The lists that hold a clause are those of its watched literals. -/
theorem count_entries (hr : store.get? r = some c) : w.entries.count r = min c.size 2 := by
  obtain ⟨x, hx⟩ := hshape.exists_watch hr
  obtain ⟨ls, hls, hlength, hmem⟩ := (hlisted.valid hr hx).exists_literals
  have hcode : ∀ l ∈ ls, (t.code l).isSome := by
    intro l hl
    obtain ⟨i, j, -, hi⟩ := Watch.has_iff.mp ((hmem l).mp hl)
    obtain ⟨n, hn⟩ := Trail.exists_code hsorted (hover.mem hr (Clause.mem_of_getElem? hi))
    rw [hn, Option.isSome_some]
  have hnodup : ∀ refs ∈ w.lists.toList, refs.toList.Nodup := by
    intro refs hrefs
    obtain ⟨n, hn⟩ := Array.mem_iff_getElem?.mp (Array.mem_toList_iff.mp hrefs)
    exact hlisted.nodup hn
  have hlist : ∀ {l n} (hlt : n < w.lists.toList.length), t.code l = some n →
      (r ∈ w.lists.toList[n] ↔ l ∈ ls) := by
    intro l n hlt hn
    have hget : w.lists[n]? = some w.lists.toList[n] := by
      rw [Array.getElem_toList, Array.getElem?_eq_getElem]
    rw [hlisted.mem_iff hn hget, watching_iff hr hx, hmem]
  have hperm : (w.lists.toList.findIdxs fun refs => r ∈ refs).Perm (ls.filterMap t.code) := by
    have hcodes : (ls.filterMap t.code).Nodup :=
      hls.filterMap fun l m n hl hm => Trail.code_inj hsorted hl hm
    rw [List.perm_ext_iff_of_nodup List.nodup_findIdxs hcodes]
    intro n
    rw [List.mem_findIdxs_iff_exists_getElem_pos, List.mem_filterMap]
    constructor
    · rintro ⟨hlt, hrn⟩
      obtain ⟨l, hl⟩ := Trail.exists_code_eq hsorted (n := n) (by
        rw [← hshape.lists_size]
        exact Array.length_toList ▸ hlt)
      exact ⟨l, (hlist hlt hl).mp (decide_eq_true_eq.mp hrn), hl⟩
    · rintro ⟨l, hl, hn⟩
      have hlt : n < w.lists.toList.length := by
        rw [Array.length_toList, hshape.lists_size]
        exact Trail.code_lt hsorted hn
      exact ⟨hlt, decide_eq_true_eq.mpr ((hlist hlt hn).mpr hl)⟩
  calc w.entries.count r = w.lists.toList.countP fun refs => r ∈ refs :=
        count_flatMap_toList hnodup r
    _ = (ls.filterMap t.code).length := by rw [← hperm.length_eq, List.length_findIdxs]
    _ = ls.length := List.filterMap_length_eq_length.mpr hcode
    _ = min c.size 2 := hlength

end Count

end Watcher

namespace Progress

namespace Consistent

variable {store : ClauseStore} {p q : Progress}

/-- Consistent tables hold each clause where it belongs. -/
theorem exact (hp : Consistent store p) : p.watcher.Exact store p.trail where
  positions r c hr := by
    obtain ⟨x, hx⟩ := hp.shape.exists_watch hr
    have hvalid := hp.listed.valid hr hx
    refine ⟨x, hx, fun hc => ?_, fun hc => ?_⟩
    · obtain ⟨hfirst, hsecond, hsize⟩ := hvalid (by omega)
      exact ⟨fun heq => by have := hsize heq; omega, hfirst, hsecond⟩
    · obtain ⟨hfirst, hsecond, -⟩ := hvalid (by omega)
      omega
  list l hl := by
    obtain ⟨n, hn⟩ := Trail.exists_code hp.wellFormed.sorted hl
    have hlt : n < p.watcher.lists.size := by
      rw [hp.shape.lists_size]
      exact Trail.code_lt hp.wellFormed.sorted hn
    have hrefs := Array.getElem?_eq_getElem hlt
    exact ⟨n, _, hn, hrefs, hp.listed.nodup hrefs, fun r => hp.listed.mem_iff hn hrefs⟩
  apart l m n := Trail.code_inj hp.wellFormed.sorted
  owned n hn := by
    rw [hp.shape.lists_size] at hn
    obtain ⟨l, hl⟩ := Trail.exists_code_eq hp.wellFormed.sorted hn
    obtain ⟨i, hi, -⟩ := Option.map_eq_some_iff.mp hl
    exact ⟨l, Trail.mem_vars_of_index hi, hl⟩
  total r c hr :=
    Watcher.count_entries hp.wellFormed.sorted hp.store_over hp.shape hp.listed hr
  known r hr := by
    obtain ⟨l, c, x, hc, -⟩ :=
      Watcher.exists_watching hp.wellFormed.sorted hp.shape hp.listed hr
    exact ⟨c, hc⟩

/-- Whatever has happened between, no clause is lost and none is listed once more. -/
theorem perm_entries (hp : Consistent store p) (hq : Consistent store q) :
    p.watcher.entries.Perm q.watcher.entries := by
  rw [List.perm_iff_count]
  intro r
  cases hr : store.get? r with
  | some c => rw [hp.exact.total hr, hq.exact.total hr]
  | none =>
    have hnot : ∀ {p}, Consistent store p → p.watcher.entries.count r = 0 := by
      intro p hp
      rw [List.count_eq_zero]
      intro hmem
      obtain ⟨c, hc⟩ := hp.exact.known hmem
      rw [hr] at hc
      cases hc
    rw [hnot hp, hnot hq]

end Consistent

end Progress

end ClauseLearning
