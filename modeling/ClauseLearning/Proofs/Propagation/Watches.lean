import ClauseLearning.Engine.Watcher
import ClauseLearning.Proofs.Trail.Reasons
import Mathlib.Data.List.Nodup

/-!
# What the watches of a store say

Two properties of a watcher:

* `Watcher.Shape`: the tables have the sizes of the store and of the list of variables. It holds in
  every state and excludes faults.
* `Watcher.Listed`: each clause stands exactly once in the list of each literal it watches, and in
  no other list.

`Watch.choose_spec` says which positions are watched first, `Watcher.attach_spec` and
`Watcher.exists_ofStore` what attaching clauses comes to.
-/

namespace ClauseLearning

/-! ## The watched positions -/

namespace Watch

/-- The two watched positions, in either order. -/
def Pair (x : Watch) (i j : Nat) : Prop := x = ⟨i, j⟩ ∨ x = ⟨j, i⟩

/-- The literal stands at a watched position of the clause. -/
def Has (x : Watch) (c : Clause) (l : Literal) : Prop :=
  c.literals[x.first]? = some l ∨ c.literals[x.second]? = some l

instance (x : Watch) (c : Clause) (l : Literal) : Decidable (x.Has c l) :=
  inferInstanceAs (Decidable (_ ∨ _))

/-- The positions are positions of the clause, and different unless it has one literal. -/
def Valid (x : Watch) (c : Clause) : Prop :=
  c.size ≠ 0 → x.first < c.size ∧ x.second < c.size ∧ (x.first = x.second → c.size = 1)

theorem pair_self (x : Watch) : x.Pair x.first x.second := .inl rfl

theorem Pair.symm {x : Watch} {i j : Nat} (h : x.Pair i j) : x.Pair j i := h.elim .inr .inl

theorem Pair.cases {x : Watch} {i j : Nat} (h : x.Pair i j) :
    i = x.first ∧ j = x.second ∨ i = x.second ∧ j = x.first := by
  rcases h with rfl | rfl
  · exact .inl ⟨rfl, rfl⟩
  · exact .inr ⟨rfl, rfl⟩

/-- A watch has two positions only. -/
theorem Pair.cases_pair {x : Watch} {i j i' j' : Nat} (h : x.Pair i j) (h' : x.Pair i' j') :
    i' = i ∧ j' = j ∨ i' = j ∧ j' = i := by
  rcases h.cases with ⟨rfl, rfl⟩ | ⟨rfl, rfl⟩
  · exact h'.cases
  · exact h'.cases.symm

theorem has_iff {x : Watch} {c : Clause} {l : Literal} :
    x.Has c l ↔ ∃ i j, x.Pair i j ∧ c.literals[i]? = some l := by
  constructor
  · rintro (h | h)
    · exact ⟨x.first, x.second, x.pair_self, h⟩
    · exact ⟨x.second, x.first, x.pair_self.symm, h⟩
  · rintro ⟨i, j, hp, h⟩
    rcases hp.cases with ⟨rfl, -⟩ | ⟨rfl, -⟩
    · exact .inl h
    · exact .inr h

private theorem le_of_maxOn? {f : Nat → Nat} {ks : List Nat} {i k : Nat}
    (h : ks.maxOn? f = some i) (hk : k ∈ ks) : f k ≤ f i := by
  have := List.le_apply_get_maxOn?_of_mem (f := f) hk
  simpa [h] using this

private theorem eq_nil_of_maxOn? {f : Nat → Nat} {ks : List Nat} (h : ks.maxOn? f = none) :
    ks = [] := by
  cases ks with
  | nil => rfl
  | cons k ks =>
    have := List.isSome_maxOn?_of_mem (f := f) (List.mem_cons_self (a := k) (l := ks))
    rw [h] at this
    cases this

/-- The chosen positions, for a clause with a literal: the first has the highest rank, the second
the highest among the others. -/
theorem choose_spec (t : Trail) (c : Clause) (hc : c.size ≠ 0) :
    (choose t c).first < c.size ∧ (choose t c).second < c.size ∧
      ((choose t c).first = (choose t c).second → c.size = 1) ∧
      (∀ k < c.size, rank t c k ≤ rank t c (choose t c).first) ∧
      ∀ k < c.size, k ≠ (choose t c).first → rank t c k ≤ rank t c (choose t c).second := by
  cases hfirst : (List.range c.size).maxOn? (rank t c) with
  | none =>
    have := eq_nil_of_maxOn? hfirst
    simp [hc] at this
  | some first =>
    have hmem := List.mem_range.mp (List.maxOn?_mem hfirst)
    have hmax : ∀ k < c.size, rank t c k ≤ rank t c first := fun k hk =>
      le_of_maxOn? hfirst (List.mem_range.mpr hk)
    cases hsecond : ((List.range c.size).filter (· ≠ first)).maxOn? (rank t c) with
    | none =>
      have hchoose : choose t c = ⟨first, first⟩ := by simp only [choose, hfirst, hsecond]
      rw [hchoose]
      have hnil := eq_nil_of_maxOn? hsecond
      have hall : ∀ k < c.size, k = first := by
        intro k hk
        have := List.filter_eq_nil_iff.mp hnil k (List.mem_range.mpr hk)
        simpa using this
      refine ⟨hmem, hmem, fun _ => ?_, hmax, fun k hk hne => absurd (hall k hk) hne⟩
      apply Classical.byContradiction
      intro hsize
      have h0 := hall 0 (by omega)
      have h1 := hall 1 (by omega)
      omega
    | some second =>
      have hchoose : choose t c = ⟨first, second⟩ := by simp only [choose, hfirst, hsecond]
      rw [hchoose]
      have hs := List.mem_filter.mp (List.maxOn?_mem hsecond)
      have hne : second ≠ first := by simpa using hs.2
      refine ⟨hmem, List.mem_range.mp hs.1, fun h => absurd h.symm hne, hmax, fun k hk hk' => ?_⟩
      exact le_of_maxOn? hsecond (List.mem_filter.mpr ⟨List.mem_range.mpr hk, by simpa using hk'⟩)

theorem choose_valid (t : Trail) (c : Clause) : (choose t c).Valid c := fun hc =>
  have h := choose_spec t c hc
  ⟨h.1, h.2.1, h.2.2.1⟩

end Watch

namespace Clause

variable {c : Clause} {i j : Nat} {l m : Literal}

theorem fetch_eq_ok (h : c.literals[i]? = some l) : c.fetch i = .ok l := by
  rw [fetch, h]

theorem exists_literal (h : i < c.size) : ∃ l, c.literals[i]? = some l :=
  ⟨_, Array.getElem?_eq_getElem h⟩

theorem mem_of_getElem? (h : c.literals[i]? = some l) : l ∈ c := Array.mem_of_getElem? h

theorem lt_size (h : c.literals[i]? = some l) : i < c.size := by
  obtain ⟨hi, -⟩ := Array.getElem?_eq_some_iff.mp h
  exact hi

theorem size_ne_zero_of_mem (h : l ∈ c) : c.size ≠ 0 :=
  Nat.ne_of_gt (Array.size_pos_of_mem h)

/-- A clause of one literal has no other. -/
theorem eq_of_size_eq_one (h : c.size = 1) (hl : l ∈ c) (hm : m ∈ c) : l = m := by
  obtain ⟨i, hi⟩ := Array.mem_iff_getElem?.mp hl
  obtain ⟨j, hj⟩ := Array.mem_iff_getElem?.mp hm
  have hic := lt_size hi
  have hjc := lt_size hj
  obtain rfl : i = j := by omega
  exact Option.some.inj (hi.symm.trans hj)

theorem size_eq_one (hl : l ∈ c) (h : ∀ m ∈ c, m = l) : c.size = 1 := by
  have hlist : c.literals.toList = [l] :=
    Ascending.eq_of_mem_iff c.ascending (List.pairwise_singleton _ _) fun m => by
      rw [List.mem_singleton, Array.mem_toList_iff]
      exact ⟨h m, fun heq => heq ▸ hl⟩
  rw [size, ← Array.length_toList, hlist, List.length_singleton]

theorem unit?_of_size_eq_one (h : c.size = 1) (hl : l ∈ c) : c.unit? = some l := by
  obtain ⟨m, hm⟩ := List.length_eq_one_iff.mp (Array.length_toList.trans h)
  have hml : m = l :=
    eq_of_size_eq_one h (Array.mem_toList_iff.mp (hm ▸ List.mem_singleton_self m)) hl
  rw [unit?, hm, hml]

theorem unit?_of_size_ne_one (h : c.size ≠ 1) : c.unit? = none := by
  unfold unit?
  split
  · next m hm => exact absurd (Array.length_toList.symm.trans (congrArg List.length hm)) h
  · rfl

/-- Different positions hold different literals. -/
theorem literal_ne (hi : c.literals[i]? = some l) (hj : c.literals[j]? = some m) (hij : i ≠ j) :
    l ≠ m := by
  rintro rfl
  exact hij (Ascending.sorted_index_unique c.ascending hi hj rfl)

end Clause

namespace Watcher

variable {store : ClauseStore} {t t' : Trail} {w w' : Watcher} {c d : Clause} {r r' : ClauseRef}
  {l m : Literal} {x : Watch} {vs : Array Var} {n h k : Nat}

/-! ## The tables -/

/-- The tables have the sizes of the store and of the list of variables. -/
structure Shape (w : Watcher) (store : ClauseStore) (vs : Array Var) : Prop where
  watches_size : w.watches.size = store.size
  lists_size : w.lists.size = 2 * vs.size
  pending : ∀ r ∈ w.pending, r.index < store.size

theorem Shape.exists_watch (hs : w.Shape store vs) (hr : store.get? r = some c) :
    ∃ x, w.watches[r.index]? = some x := by
  have := ClauseStore.index_lt_of_get? hr
  exact ⟨_, Array.getElem?_eq_getElem (by rw [hs.watches_size]; exact this)⟩

theorem Shape.backtrack (hs : w.Shape store t.vars) (k : Nat) :
    (w.backtrack (t.backtrack k)).Shape store (t.backtrack k).vars := by
  rw [Trail.vars_backtrack]
  exact ⟨hs.watches_size, hs.lists_size, hs.pending⟩

theorem fetch_eq_ok (hx : w.watches[r.index]? = some x) : w.fetch r = .ok x := by
  rw [fetch, hx]

/-- Listing a clause under a literal changes the list of this literal alone. -/
theorem exists_list (hsorted : Ascending.Sorted Var.id t.vars.toList)
    (hsize : w.lists.size = 2 * t.vars.size) (l : Literal) (r : ClauseRef) :
    ∃ lists, w.watch t l r = .ok { w with lists } ∧ lists.size = w.lists.size ∧
      ∀ n, lists[n]? = if t.code l = some n then (w.lists[n]?).map (·.push r) else w.lists[n]? := by
  unfold watch
  cases hcode : t.code l with
  | none => exact ⟨w.lists, rfl, rfl, fun n => by simp⟩
  | some n =>
    have hlt : n < w.lists.size := by
      have := Trail.code_lt hsorted hcode
      rw [hsize]
      exact this
    refine ⟨w.lists.modify n (·.push r), by simp [hlt], by simp, fun n' => ?_⟩
    rw [Array.getElem?_modify]
    simp

/-- The clause of a reference watches the literal. -/
def Watching (w : Watcher) (store : ClauseStore) (r : ClauseRef) (l : Literal) : Prop :=
  ∃ c x, store.get? r = some c ∧ w.watches[r.index]? = some x ∧ x.Has c l

/-- Each clause stands once in the list of each literal it watches, and nowhere else. -/
structure Listed (w : Watcher) (store : ClauseStore) (t : Trail) : Prop where
  valid : ∀ {r c x}, store.get? r = some c → w.watches[r.index]? = some x → x.Valid c
  mem_iff : ∀ {l n refs r}, t.code l = some n → w.lists[n]? = some refs →
    (r ∈ refs ↔ w.Watching store r l)
  nodup : ∀ {n : Nat} {refs : Array ClauseRef}, w.lists[n]? = some refs → refs.toList.Nodup

/-- The lists depend on the trail only through its variables. -/
theorem Listed.congr (hv : t'.vars = t.vars) (hl : w.Listed store t) : w.Listed store t' :=
  ⟨hl.valid, fun hcode => hl.mem_iff (by rwa [Trail.code_congr hv] at hcode), hl.nodup⟩

theorem Listed.backtrack (h : w.Listed store t) (k : Nat) :
    (w.backtrack (t.backtrack k)).Listed store (t.backtrack k) :=
  have h' := h.congr (Trail.vars_backtrack t k)
  ⟨h'.valid, h'.mem_iff, h'.nodup⟩

/-- Only the clauses of the store watch anything. -/
theorem Watching.index_lt (h : w.Watching store r l) : r.index < store.size := by
  obtain ⟨c, x, hr, -⟩ := h
  exact ClauseStore.index_lt_of_get? hr

/-! ## Attaching a clause -/

section Push

variable (hsize : w.watches.size = store.size) (hw' : w'.watches = w.watches.push x)

include hsize hw'

theorem watch_push_self : w'.watches[store.nextRef.index]? = some x := by
  rw [hw', Array.getElem?_push, hsize, ClauseStore.nextRef, if_pos rfl]

theorem watch_push_of_get? {d : Clause} (hd : store.get? r = some d) :
    w'.watches[r.index]? = w.watches[r.index]? := by
  rw [hw', Array.getElem?_push, hsize, if_neg (Nat.ne_of_lt (ClauseStore.index_lt_of_get? hd))]

/-- The earlier clauses watch what they watched, the new one its chosen positions. -/
theorem watching_push : w'.Watching (store.push c) r l ↔
    w.Watching store r l ∨ r = store.nextRef ∧ x.Has c l := by
  constructor
  · rintro ⟨d, y, hd, hy, hl⟩
    rcases ClauseStore.get?_push_cases hd with ⟨rfl, rfl⟩ | hd
    · rw [watch_push_self hsize hw'] at hy
      obtain rfl := Option.some.inj hy
      exact .inr ⟨rfl, hl⟩
    · exact .inl ⟨d, y, hd, (watch_push_of_get? hsize hw' hd).symm.trans hy, hl⟩
  · rintro (⟨d, y, hd, hy, hl⟩ | ⟨rfl, hl⟩)
    · exact ⟨d, y, ClauseStore.get?_push hd, (watch_push_of_get? hsize hw' hd).trans hy, hl⟩
    · exact ⟨c, x, ClauseStore.get?_push_nextRef store c, watch_push_self hsize hw', hl⟩

end Push

/-- A clause is listed once under each literal at its chosen positions. -/
theorem exists_attach (hsorted : Ascending.Sorted Var.id t.vars.toList)
    (hshape : w.Shape store t.vars) (c : Clause) :
    ∃ lists, w.attach store.nextRef c t = .ok
        ⟨lists, w.watches.push (Watch.choose t c), w.head, w.pending.push store.nextRef⟩ ∧
      lists.size = w.lists.size ∧
      ∀ l n, t.code l = some n → lists[n]? =
        if (Watch.choose t c).Has c l then (w.lists[n]?).map (·.push store.nextRef)
        else w.lists[n]? := by
  have hturn : store.nextRef.index = w.watches.size := hshape.watches_size.symm
  have hcode : ∀ l m n, t.code l = some n → (t.code m = some n ↔ m = l) := by
    intro l m n hl
    constructor
    · exact fun hm => Trail.code_inj hsorted hm hl
    · rintro rfl
      exact hl
  have hvalid := Watch.choose_valid t c
  simp only [attach, ne_eq, hturn, not_true_eq_false, ↓reduceIte]
  by_cases hc : c.size = 0
  · have hchoose : Watch.choose t c = ⟨0, 0⟩ := by
      rw [Watch.choose, hc]
      rfl
    have hnone : c.literals[0]? = none := Array.getElem?_eq_none (Nat.le_of_eq hc)
    rw [hchoose]
    refine ⟨w.lists, ?_, rfl, fun l n _ => ?_⟩
    · simp only [hnone]
      rfl
    · rw [if_neg (by simp [Watch.Has, hnone])]
  generalize Watch.choose t c = x at hvalid ⊢
  obtain ⟨l₁, h₁⟩ := Clause.exists_literal (hvalid hc).1
  obtain ⟨l₂, h₂⟩ := Clause.exists_literal (hvalid hc).2.1
  obtain ⟨lists₁, hw₁, hsize₁, hlists₁⟩ := exists_list
    (w := { w with watches := w.watches.push x }) hsorted hshape.lists_size l₁ store.nextRef
  by_cases hne : x.second = x.first
  · refine ⟨lists₁, ?_, hsize₁, fun l n hl => ?_⟩
    · simp only [h₁, hw₁, hne, bind, Except.bind]
      rfl
    · simp only [hlists₁, hcode l l₁ n hl, Watch.Has, hne, h₁, Option.some.injEq, or_self]
  · obtain ⟨lists₂, hw₂, hsize₂, hlists₂⟩ := exists_list
      (w := { w with watches := w.watches.push x, lists := lists₁ }) hsorted
      (hsize₁.trans hshape.lists_size) l₂ store.nextRef
    refine ⟨lists₂, ?_, hsize₂.trans hsize₁, fun l n hl => ?_⟩
    · simp only [h₁, hw₁, hne, Clause.fetch_eq_ok h₂, hw₂, bind, Except.bind]
      rfl
    · have hl₁₂ : l₂ ≠ l₁ := Clause.literal_ne h₂ h₁ hne
      simp only [hlists₂, hlists₁, hcode l l₁ n hl, hcode l l₂ n hl, Watch.Has, h₁, h₂,
        Option.some.injEq]
      by_cases hl₁ : l₁ = l
      · have hl₂ : l₂ ≠ l := hl₁ ▸ hl₁₂
        simp [hl₁, hl₂]
      · simp [hl₁]

theorem Shape.push (hshape : w.Shape store vs) (hlists : w'.lists.size = w.lists.size)
    (hwatches : w'.watches = w.watches.push x)
    (hpending : w'.pending = w.pending.push store.nextRef) : w'.Shape (store.push c) vs where
  watches_size := by rw [hwatches, Array.size_push, hshape.watches_size, ClauseStore.size_push]
  lists_size := hlists.trans hshape.lists_size
  pending r hr := by
    rw [hpending, Array.mem_push] at hr
    rw [ClauseStore.size_push]
    rcases hr with hr | rfl
    · exact Nat.lt_succ_of_lt (hshape.pending r hr)
    · exact Nat.lt_succ_self _

theorem Listed.push (hsorted : Ascending.Sorted Var.id t.vars.toList)
    (hshape : w.Shape store t.vars) (hlisted : w.Listed store t) (hvalid : x.Valid c)
    (hsize : w'.lists.size = w.lists.size) (hwatches : w'.watches = w.watches.push x)
    (hlists : ∀ l n, t.code l = some n → w'.lists[n]? =
      if x.Has c l then (w.lists[n]?).map (·.push store.nextRef) else w.lists[n]?) :
    w'.Listed (store.push c) t := by
  have hold : ∀ {l n refs}, t.code l = some n → w.lists[n]? = some refs →
      store.nextRef ∉ refs := by
    intro l n refs hl hrefs hmem
    exact absurd ((hlisted.mem_iff hl hrefs).mp hmem).index_lt (Nat.lt_irrefl _)
  refine ⟨?_, ?_, ?_⟩
  · intro r d y hd hy
    rcases ClauseStore.get?_push_cases hd with ⟨rfl, rfl⟩ | hd
    · rw [watch_push_self hshape.watches_size hwatches] at hy
      obtain rfl := Option.some.inj hy
      exact hvalid
    · rw [watch_push_of_get? hshape.watches_size hwatches hd] at hy
      exact hlisted.valid hd hy
  · intro l n refs r hl hrefs
    rw [watching_push hshape.watches_size hwatches]
    rw [hlists l n hl] at hrefs
    split at hrefs
    · next hhas =>
      obtain ⟨refs', hrefs', rfl⟩ := Option.map_eq_some_iff.mp hrefs
      rw [Array.mem_push, hlisted.mem_iff hl hrefs']
      exact or_congr_right ⟨fun h => ⟨h, hhas⟩, fun h => h.1⟩
    · next hhas =>
      rw [hlisted.mem_iff hl hrefs]
      exact ⟨.inl, fun h => h.resolve_right fun h => hhas h.2⟩
  · intro n refs hrefs
    obtain ⟨hn, -⟩ := Array.getElem?_eq_some_iff.mp hrefs
    obtain ⟨l, hl⟩ := Trail.exists_code_eq hsorted (n := n) (by
      rw [hsize, hshape.lists_size] at hn
      exact hn)
    rw [hlists l n hl] at hrefs
    split at hrefs
    · obtain ⟨refs', hrefs', rfl⟩ := Option.map_eq_some_iff.mp hrefs
      rw [Array.toList_push, ← List.concat_eq_append]
      exact .concat (fun hmem => hold hl hrefs' (Array.mem_toList_iff.mp hmem))
        (hlisted.nodup hrefs')
    · exact hlisted.nodup hrefs

/-- Attaching the next clause of the store succeeds, and lists it. -/
theorem attach_spec (hsorted : Ascending.Sorted Var.id t.vars.toList)
    (hshape : w.Shape store t.vars) (c : Clause) :
    ∃ w', w.attach store.nextRef c t = .ok w' ∧ w'.Shape (store.push c) t.vars ∧
      w'.head = w.head ∧ w'.pending = w.pending.push store.nextRef ∧
      w'.watches = w.watches.push (Watch.choose t c) ∧
      (w.Listed store t → w'.Listed (store.push c) t) := by
  obtain ⟨lists, hattach, hsize, hlists⟩ := exists_attach hsorted hshape c
  exact ⟨_, hattach, hshape.push hsize rfl rfl, rfl, rfl, rfl, fun hlisted =>
    hlisted.push hsorted hshape (Watch.choose_valid t c) hsize rfl hlists⟩

/-- A watcher that has propagated nothing: every clause is pending. -/
structure Fresh (w : Watcher) (store : ClauseStore) (t : Trail) : Prop where
  shape : w.Shape store t.vars
  listed : w.Listed store t
  head : w.head = 0
  pending : ∀ r : ClauseRef, r.index < store.size → r ∈ w.pending

/-- A watcher without clauses is fresh for a store without clauses. -/
theorem fresh_empty (t : Trail) (n : Nat) : (empty t).Fresh ⟨#[], n⟩ t := by
  refine ⟨⟨rfl, by simp [empty, Trail.numVariables], by simp [empty]⟩, ⟨?_, ?_, ?_⟩, rfl, ?_⟩
  · intro r c x hr
    simp [ClauseStore.get?] at hr
  · intro l n refs r hl hrefs
    have : refs = #[] := by
      simp only [empty, Array.getElem?_replicate] at hrefs
      split at hrefs
      · exact (Option.some.inj hrefs).symm
      · cases hrefs
    constructor
    · intro hr
      simp [this] at hr
    · intro hr
      exact absurd hr.index_lt (Nat.not_lt_zero _)
  · intro n refs hrefs
    simp only [empty, Array.getElem?_replicate] at hrefs
    split at hrefs
    · rw [← Option.some.inj hrefs]
      exact List.nodup_nil
    · cases hrefs
  · intro r hr
    exact absurd hr (Nat.not_lt_zero _)

private theorem exists_attachAll (hsorted : Ascending.Sorted Var.id t.vars.toList)
    (cs : List Clause) (hw : w.Fresh store t) :
    ∃ w', ((cs.zipIdx store.size).map fun (c, i) => (⟨i⟩, c)).foldlM
        (fun w ((r, c) : ClauseRef × Clause) => w.attach r c t) w = Except.ok w' ∧
      w'.Fresh { store with clauses := store.clauses ++ cs.toArray } t := by
  induction cs generalizing store w with
  | nil =>
    refine ⟨w, rfl, ?_⟩
    simpa using hw
  | cons c cs ih =>
    obtain ⟨w₁, hattach, hshape, hhead, hpending, -, hlisted⟩ := attach_spec hsorted hw.shape c
    have hfresh : w₁.Fresh (store.push c) t := by
      refine ⟨hshape, hlisted hw.listed, hhead.trans hw.head, fun r hr => ?_⟩
      rw [hpending, Array.mem_push]
      rw [ClauseStore.size_push] at hr
      rcases Nat.lt_succ_iff_lt_or_eq.mp hr with hr | hr
      · exact .inl (hw.pending r hr)
      · obtain ⟨i⟩ := r
        exact .inr (congrArg ClauseRef.mk hr)
    obtain ⟨w₂, hfold, hw₂⟩ := ih hfresh
    refine ⟨w₂, ?_, ?_⟩
    · rw [List.zipIdx_cons, List.map_cons, List.foldlM_cons]
      simp only [ClauseStore.nextRef] at hattach
      simp only [hattach, bind, Except.bind]
      rw [ClauseStore.size_push] at hfold
      exact hfold
    · simpa [ClauseStore.push] using hw₂

/-- A watcher can be made for every store, on a trail with nothing assigned. -/
theorem exists_ofStore (hsorted : Ascending.Sorted Var.id t.vars.toList) (hsize : t.size = 0)
    (store : ClauseStore) : ∃ w, ofStore store t = .ok w ∧ w.Fresh store t := by
  obtain ⟨w, hfold, hw⟩ := exists_attachAll hsorted store.clauses.toList
    (fresh_empty t store.formulaSize)
  refine ⟨w, ?_, by simpa using hw⟩
  rw [ofStore, if_neg (by simp [hsize])]
  exact hfold

end Watcher

end ClauseLearning
