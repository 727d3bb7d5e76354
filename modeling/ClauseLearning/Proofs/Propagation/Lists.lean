import ClauseLearning.Engine.Watching
import ClauseLearning.Proofs.Propagation.Scan
import ClauseLearning.Proofs.Propagation.Watches

/-!
# The lists while one of them is visited

When a literal becomes false, the clauses in its list are visited one after the other. While the
list is being visited it is out of the tables, so the lists are right again once the clauses that
were kept (`done ++ kept`) are put back. This needs nothing of the trail but that the literal is
false.

* `Watcher.exists_rewatch`, `Moves.listed`: a clause that moves to another literal changes lists.
* `Progress.replacement_spec`: what the search for another literal finds.
* `Progress.VisitStep`: what the visit of one clause comes to; `visit_step`: there is nothing else.
* `Progress.Opened`: what holds before each visit. It is kept whether the clause stays or moves.
* `Progress.exists_visit`: a visit never faults, and the lists are right after it.
* `Progress.exists_falsify`: nor does the visit of a whole list, which is put back in the end.
-/

namespace ClauseLearning

namespace Watch

variable {x x' : Watch} {c : Clause} {i j k : Nat} {l m other : Literal}

/-- The watched literals of a pair of positions. -/
theorem Pair.has_iff (hp : x.Pair i j) (hi : c.literals[i]? = some l)
    (hj : c.literals[j]? = some other) : x.Has c m ↔ m = l ∨ m = other := by
  rcases hp with rfl | rfl <;> simp [Has, hi, hj, eq_comm, or_comm]

end Watch

/-- If a watched literal and all unwatched ones are false, only the other watched literal may not be
false. -/
theorem Clause.false_of_positions {c : Clause} {t : Trail} {l m other : Literal} {i j : Nat}
    (hi : c.literals[i]? = some l) (hj : c.literals[j]? = some other) (hl : t.value l = some false)
    (hrest : ∀ k m, c.literals[k]? = some m → k ≠ i → k ≠ j → t.value m = some false) (hm : m ∈ c)
    (hne : m ≠ other) : t.value m = some false := by
  obtain ⟨k, hk⟩ := Array.mem_iff_getElem?.mp hm
  by_cases hki : k = i
  · subst hki
    rw [Option.some.inj (hk.symm.trans hi), hl]
  · refine hrest k m hk hki fun hkj => hne ?_
    subst hkj
    exact Option.some.inj (hk.symm.trans hj)

namespace Watcher

variable {store : ClauseStore} {t : Trail} {w w' : Watcher} {c : Clause} {r r' : ClauseRef}
  {l m other : Literal} {x x' : Watch} {refs rest done : List ClauseRef} {code i j k : Nat}

/-! ## Replacing lists and watches -/

theorem getElem?_setList (hcode : code < w.lists.size) (n : Nat) :
    (w.setList code refs).lists[n]? = if n = code then some refs.toArray else w.lists[n]? := by
  simp only [setList, Array.getElem?_setIfInBounds, hcode, ↓reduceIte, eq_comm (a := code)]

@[simp] theorem watches_setList (w : Watcher) (code : Nat) (refs : List ClauseRef) :
    (w.setList code refs).watches = w.watches := rfl

@[simp] theorem setList_setList (w : Watcher) (code : Nat) (refs rest : List ClauseRef) :
    (w.setList code refs).setList code rest = w.setList code rest := by
  simp [setList]

/-- Putting a list back changes nothing. -/
theorem setList_toList {refs : Array ClauseRef} (hrefs : w.lists[code]? = some refs) :
    w.setList code refs.toList = w := by
  obtain ⟨hlt, rfl⟩ := Array.getElem?_eq_some_iff.mp hrefs
  simp [setList, Array.setIfInBounds, hlt]

theorem Watching.congr (hw : w'.watches[r.index]? = w.watches[r.index]?) :
    w'.Watching store r l ↔ w.Watching store r l := by
  unfold Watching
  rw [hw]

theorem watching_iff (hr : store.get? r = some c) (hx : w.watches[r.index]? = some x) :
    w.Watching store r l ↔ x.Has c l := by
  constructor
  · rintro ⟨d, y, hd, hy, hl⟩
    obtain rfl := Option.some.inj (hr.symm.trans hd)
    obtain rfl := Option.some.inj (hx.symm.trans hy)
    exact hl
  · exact fun hl => ⟨c, x, hr, hx, hl⟩

/-- `w'` is `w` after the clause of `r` has moved a watch from `l` to `m` and has been listed under
`m`; its other watched literal is `other`. -/
structure Moves (w w' : Watcher) (store : ClauseStore) (t : Trail) (r : ClauseRef)
    (l m other : Literal) : Prop where
  was : ∀ n, w.Watching store r n ↔ n = l ∨ n = other
  now : ∀ n, w'.Watching store r n ↔ n = m ∨ n = other
  valid : ∀ {c x}, store.get? r = some c → w'.watches[r.index]? = some x → x.Valid c
  rest : ∀ {r'}, r' ≠ r → w'.watches[r'.index]? = w.watches[r'.index]?
  ne_old : m ≠ l
  ne_other : m ≠ other
  old_ne_other : l ≠ other
  watches_size : w'.watches.size = w.watches.size
  lists_size : w'.lists.size = w.lists.size
  lists : ∀ n, w'.lists[n]? =
    if t.code m = some n then (w.lists[n]?).map (·.push r) else w.lists[n]?

/-- Changing a watch to an unwatched position moves the clause. -/
theorem exists_rewatch (hsorted : Ascending.Sorted Var.id t.vars.toList)
    (hsize : w.lists.size = 2 * t.vars.size) (hr : store.get? r = some c)
    (hx : w.watches[r.index]? = some x) (hp : x.Pair i j) (hij : i ≠ j)
    (hi : c.literals[i]? = some l) (hj : c.literals[j]? = some other) (hp' : x'.Pair k j)
    (hki : k ≠ i) (hkj : k ≠ j) (hk : c.literals[k]? = some m) :
    ∃ w', w.rewatch t r x' m = .ok w' ∧ w.Moves w' store t r l m other ∧ w'.head = w.head ∧
      w'.pending = w.pending ∧ w'.watches[r.index]? = some x' := by
  obtain ⟨lists, hw, hlsize, hlists⟩ := exists_list
    (w := { w with watches := w.watches.setIfInBounds r.index x' }) hsorted hsize m r
  have hx' : (w.watches.setIfInBounds r.index x')[r.index]? = some x' := by
    obtain ⟨hri, -⟩ := Array.getElem?_eq_some_iff.mp hx
    rw [Array.getElem?_setIfInBounds_self_of_lt hri]
  refine ⟨_, hw, ?_, rfl, rfl, hx'⟩
  refine ⟨fun n => (watching_iff hr hx).trans (hp.has_iff hi hj),
    fun n => (watching_iff hr hx').trans (hp'.has_iff hk hj), ?_, ?_,
    Clause.literal_ne hk hi hki, Clause.literal_ne hk hj hkj, Clause.literal_ne hi hj hij,
    Array.size_setIfInBounds, hlsize, hlists⟩
  · intro d y hd hy _
    obtain rfl := Option.some.inj (hr.symm.trans hd)
    obtain rfl := Option.some.inj (hx'.symm.trans hy)
    have hkc := Clause.lt_size hk
    have hjc := Clause.lt_size hj
    rcases hp'.cases with ⟨rfl, rfl⟩ | ⟨rfl, rfl⟩
    · exact ⟨hkc, hjc, fun h => absurd h hkj⟩
    · exact ⟨hjc, hkc, fun h => absurd h.symm hkj⟩
  · intro r' hne
    have : r.index ≠ r'.index := fun h => hne (by cases r; cases r'; cases h; rfl)
    exact Array.getElem?_setIfInBounds_ne this

namespace Moves

private theorem watching_rest (hm : w.Moves w' store t r l m other) (hne : r' ≠ r) (n : Literal) :
    w'.Watching store r' n ↔ w.Watching store r' n :=
  Watching.congr (hm.rest hne)

/-- The lists that are not those of `l` or `m` are right after the move because they were before. -/
private theorem mem_iff_of_ne (hm : w.Moves w' store t r l m other) {n : Literal}
    (hnl : n ≠ l) (hnm : n ≠ m) : w'.Watching store r' n ↔ w.Watching store r' n := by
  by_cases hrr : r' = r
  · subst hrr
    rw [hm.now, hm.was]
    simp [hnl, hnm]
  · exact hm.watching_rest hrr n

variable (hlt : code < w.lists.size) (hm : w.Moves w' store t r l m other)
  (hlisted : (w.setList code (done ++ r :: rest)).Listed store t)

include hlt hlisted

private theorem nodup_rest : r ∉ done ++ rest ∧ (done ++ rest).Nodup := by
  have hnodup : (done ++ r :: rest).Nodup := by
    have := hlisted.nodup (n := code) (by rw [getElem?_setList hlt, if_pos rfl])
    simpa using this
  exact List.nodup_cons.mp (List.perm_middle.nodup_iff.mp hnodup)

include hm

private theorem nodup {num : Nat} {refs : Array ClauseRef}
    (hrefs : (w'.setList code (done ++ rest)).lists[num]? = some refs) : refs.toList.Nodup := by
  rw [getElem?_setList (hm.lists_size ▸ hlt)] at hrefs
  split at hrefs
  · obtain rfl := Option.some.inj hrefs
    exact (nodup_rest hlt hlisted).2
  · next hnum =>
    have hold : ∀ {refs : Array ClauseRef}, w.lists[num]? = some refs →
        (w.setList code (done ++ r :: rest)).lists[num]? = some refs := by
      intro refs hrefs
      rw [getElem?_setList hlt, if_neg hnum, hrefs]
    rw [hm.lists] at hrefs
    split at hrefs
    · next hmn =>
      obtain ⟨refs', hrefs', rfl⟩ := Option.map_eq_some_iff.mp hrefs
      have hmem : r ∉ refs' := by
        intro hmem
        exact ((hm.was m).mp ((hlisted.mem_iff hmn (hold hrefs')).mp hmem)).elim hm.ne_old
          hm.ne_other
      rw [Array.toList_push, ← List.concat_eq_append]
      exact .concat (fun h => hmem (Array.mem_toList_iff.mp h)) (hlisted.nodup (hold hrefs'))
    · exact hlisted.nodup (hold hrefs)

variable (hsorted : Ascending.Sorted Var.id t.vars.toList) (hcode : t.code l = some code)

include hsorted hcode

private theorem mem_iff {n : Literal} {num : Nat} {refs : Array ClauseRef}
    (hn : t.code n = some num) (hrefs : (w'.setList code (done ++ rest)).lists[num]? = some refs) :
    r' ∈ refs ↔ w'.Watching store r' n := by
  rw [getElem?_setList (hm.lists_size ▸ hlt)] at hrefs
  split at hrefs
  · next hnum =>
    -- The list of `l` has lost the clause.
    subst hnum
    obtain rfl := Trail.code_inj hsorted hn hcode
    obtain rfl := Option.some.inj hrefs
    have hold : r' ∈ done ++ r :: rest ↔ w.Watching store r' n := by
      rw [← List.mem_toArray]
      exact hlisted.mem_iff hcode (by rw [getElem?_setList hlt, if_pos rfl])
    rw [List.mem_toArray]
    by_cases hrr : r' = r
    · subst hrr
      rw [hm.now]
      exact ⟨fun h => absurd h (nodup_rest hlt hlisted).1, fun h =>
        (h.elim hm.ne_old.symm hm.old_ne_other).elim⟩
    · rw [hm.watching_rest hrr, ← hold]
      simp [hrr]
  · next hnum =>
    have hold : ∀ {refs : Array ClauseRef}, w.lists[num]? = some refs →
        (r' ∈ refs ↔ w.Watching store r' n) := fun hrefs =>
      hlisted.mem_iff hn (by rw [getElem?_setList hlt, if_neg hnum, hrefs])
    have hnl : n ≠ l := by
      rintro rfl
      exact hnum (Option.some.inj (hn.symm.trans hcode))
    rw [hm.lists] at hrefs
    split at hrefs
    · next hmn =>
      -- The list of `m` has got it.
      obtain rfl := Trail.code_inj hsorted hmn hn
      obtain ⟨refs', hrefs', rfl⟩ := Option.map_eq_some_iff.mp hrefs
      rw [Array.mem_push, hold hrefs']
      by_cases hrr : r' = r
      · subst hrr
        simp [hm.now]
      · rw [hm.watching_rest hrr]
        simp [hrr]
    · next hmn =>
      have hnm : n ≠ m := by
        rintro rfl
        exact hmn hn
      rw [hold hrefs, hm.mem_iff_of_ne hnl hnm]

/-- A moved clause leaves the one list and stands in the other. -/
theorem listed : (w'.setList code (done ++ rest)).Listed store t where
  valid {r' c x} hc hx := by
    by_cases hrr : r' = r
    · subst hrr
      exact hm.valid hc hx
    · rw [watches_setList, hm.rest hrr] at hx
      exact hlisted.valid hc hx
  mem_iff hn hrefs := hm.mem_iff hlt hlisted hsorted hcode hn hrefs
  nodup hrefs := hm.nodup hlt hlisted hrefs

end Moves

end Watcher

namespace Progress

variable {store : ClauseStore} {p q : Progress} {c : Clause} {r : ClauseRef} {x : Watch}
  {l other : Literal} {refs rest done : List ClauseRef} {code i j k h : Nat}

/-! ## One visit -/

/-- A replacement is an unwatched literal that is not false; without one, every unwatched literal is
false. -/
theorem replacement_spec (t : Trail) (c : Clause) (hp : x.Pair i j) :
    match replacement t c x with
    | some k => k ≠ i ∧ k ≠ j ∧ ∃ m, c.literals[k]? = some m ∧ t.value m ≠ some false
    | none => ∀ k m, c.literals[k]? = some m → k ≠ i → k ≠ j → t.value m = some false := by
  have hne : ∀ k, k ≠ x.first ∧ k ≠ x.second ↔ k ≠ i ∧ k ≠ j := by
    intro k
    rcases hp.cases with ⟨rfl, rfl⟩ | ⟨rfl, rfl⟩
    · rfl
    · exact And.comm
  cases hrep : replacement t c x with
  | some k =>
    have hk := List.find?_some hrep
    simp only [Bool.and_eq_true, decide_eq_true_eq, Option.any_eq_true, bne_iff_ne] at hk
    obtain ⟨hk, m, hm, hv⟩ := hk
    exact ⟨((hne k).mp hk).1, ((hne k).mp hk).2, m, hm, hv⟩
  | none =>
    intro k m hm hki hkj
    have hk := List.find?_eq_none.mp hrep k (List.mem_range.mpr (Clause.lt_size hm))
    have hxk := (hne k).mpr ⟨hki, hkj⟩
    simpa [hxk.1, hxk.2, hm] using hk

/-- What the visit of one clause does, said on the position `i` of the falsified literal and on the
position `j` of the other watched literal. -/
theorem visit_cons (rest : List ClauseRef) (hr : store.get? r = some c)
    (hx : p.watcher.watches[r.index]? = some x) (hvalid : x.Valid c) (hhas : x.Has c l) :
    ∃ i j other, x.Pair i j ∧ c.literals[i]? = some l ∧ c.literals[j]? = some other ∧
      (i = j → c.size = 1) ∧ ∃ moved : Nat → Watch, (∀ k, (moved k).Pair k j) ∧
      visit store l (r :: rest) p =
        if p.trail.value other = some true then
          (visit store l rest p).map fun v => { v with kept := r :: v.kept }
        else match replacement p.trail c x with
          | some k => do visit store l rest (← p.rewatch r (moved k) (← c.fetch k))
          | none => match p.trail.value other with
            | none => do
              let q ← p.imply other r c
              (visit store l rest q).map fun v => { v with kept := r :: v.kept }
            | some _ => .ok ⟨r :: rest, some r, p⟩ := by
  have hc : c.size ≠ 0 := by
    rcases hhas with h | h <;> exact Nat.ne_of_gt (Nat.zero_lt_of_lt (Clause.lt_size h))
  obtain ⟨hfirst, hsecond, hsize⟩ := hvalid hc
  obtain ⟨l₁, h₁⟩ := Clause.exists_literal hfirst
  obtain ⟨l₂, h₂⟩ := Clause.exists_literal hsecond
  by_cases hl : l₁ = l
  · subst hl
    refine ⟨x.first, x.second, l₂, x.pair_self, h₁, h₂, hsize, fun k => ⟨k, x.second⟩,
      fun k => .inl rfl, ?_⟩
    simp only [visit, ClauseStore.fetch_eq_ok hr, Watcher.fetch_eq_ok hx, Clause.fetch_eq_ok h₁,
      Clause.fetch_eq_ok h₂, bind, Except.bind, beq_self_eq_true, ↓reduceIte]
    rfl
  · have hl₂ : l₂ = l := by
      rcases hhas with h | h
      · exact absurd (Option.some.inj (h₁.symm.trans h)) hl
      · exact Option.some.inj (h₂.symm.trans h)
    subst hl₂
    refine ⟨x.second, x.first, l₁, x.pair_self.symm, h₂, h₁, fun h => hsize h.symm,
      fun k => ⟨x.first, k⟩, fun k => .inr rfl, ?_⟩
    simp only [visit, ClauseStore.fetch_eq_ok hr, Watcher.fetch_eq_ok hx, Clause.fetch_eq_ok h₁,
      bind, Except.bind, beq_false_of_ne hl, Bool.false_eq_true, ↓reduceIte]
    rfl

/-- What the visit of the clause of `r` comes to, where `l` stands at its watched position `i` and
`other` at the position `j`. -/
inductive VisitStep (store : ClauseStore) (l : Literal) (r : ClauseRef) (rest : List ClauseRef)
    (p : Progress) (c : Clause) (j : Nat) (other : Literal) : Prop
  /-- The other watched literal is true: the clause stays. -/
  | stay (hother : p.trail.value other = some true)
      (hvisit : visit store l (r :: rest) p =
        (visit store l rest p).map fun v => { v with kept := r :: v.kept })
  /-- The clause moves to a literal that is not false. -/
  | move {k : Nat} {m : Literal} {x : Watch} {w : Watcher} (hp : x.Pair k j)
      (hm : c.literals[k]? = some m) (hv : p.trail.value m ≠ some false)
      (hmoves : p.watcher.Moves w store p.trail r l m other) (hhead : w.head = p.watcher.head)
      (hpending : w.pending = p.watcher.pending) (hx : w.watches[r.index]? = some x)
      (hvisit : visit store l (r :: rest) p = visit store l rest { p with watcher := w })
  /-- The clause forces the other watched literal, and stays. -/
  | force {q : Progress} (hwatcher : q.watcher = p.watcher) (hd : p.Derives store q)
      (ha : p.trail.Appends other (.clause r) q.trail)
      (hvisit : visit store l (r :: rest) p =
        (visit store l rest q).map fun v => { v with kept := r :: v.kept })
  /-- The clause is falsified, and nothing else is visited. -/
  | conflict (hf : p.trail.Falsifies c)
      (hvisit : visit store l (r :: rest) p = .ok ⟨r :: rest, some r, p⟩)

/-- The trail and the watcher fit the store. -/
structure Fits (store : ClauseStore) (p : Progress) : Prop where
  store_over : store.Over p.trail.vars
  wellFormed : p.trail.WellFormed
  shape : p.watcher.Shape store p.trail.vars

theorem Fits.derives (hp : Fits store p) (hd : p.Derives store q)
    (hshape : q.watcher.Shape store p.trail.vars) : Fits store q := by
  have hcont := hd.continues hp.wellFormed
  exact ⟨hcont.vars ▸ hp.store_over, hd.wellFormed hp.wellFormed, hcont.vars ▸ hshape⟩

theorem Fits.setList (hp : Fits store p) (code : Nat) (refs : List ClauseRef) :
    Fits store (p.setList code refs) :=
  ⟨hp.store_over, hp.wellFormed, hp.shape.watches_size,
    Array.size_setIfInBounds.trans hp.shape.lists_size, hp.shape.pending⟩

/-- A clause that watches a false literal is visited in one of four ways. -/
theorem visit_step (rest : List ClauseRef) (hp : Fits store p) (hr : store.get? r = some c)
    (hx : p.watcher.watches[r.index]? = some x) (hvalid : x.Valid c) (hhas : x.Has c l)
    (hl : p.trail.value l = some false) :
    ∃ i j other, x.Pair i j ∧ c.literals[i]? = some l ∧ c.literals[j]? = some other ∧
      (i = j → c.size = 1) ∧ VisitStep store l r rest p c j other := by
  have hw := hp.wellFormed
  obtain ⟨i, j, other, hpair, hi, hj, hij, moved, hmoved, hvisit⟩ :=
    visit_cons rest hr hx hvalid hhas
  refine ⟨i, j, other, hpair, hi, hj, hij, ?_⟩
  have hrep := replacement_spec p.trail c hpair
  split at hvisit
  · next hother => exact .stay hother hvisit
  · next hother =>
    cases hk : replacement p.trail c x with
    | some k =>
      rw [hk] at hrep hvisit
      obtain ⟨hki, hkj, m, hm, hmv⟩ := hrep
      -- A clause of one literal has no unwatched position.
      have hne : i ≠ j := fun heq => by
        have := hij heq
        have := Clause.lt_size hi
        have := Clause.lt_size hm
        omega
      obtain ⟨w, hrewatch, hmoves, hhead, hpending, hx'⟩ := Watcher.exists_rewatch hw.sorted
        hp.shape.lists_size hr hx hpair hne hi hj (hmoved k) hki hkj hm
      refine .move (hmoved k) hm hmv hmoves hhead hpending hx' ?_
      rw [hvisit]
      simp only [Clause.fetch_eq_ok hm, rewatch, hrewatch, bind, Except.bind]
      rfl
    | none =>
      rw [hk] at hrep hvisit
      have hfalse := fun m => Clause.false_of_positions (m := m) hi hj hl hrep
      cases hv : p.trail.value other with
      | none =>
        have hforces : p.trail.Forces c other := ⟨Clause.mem_of_getElem? hj, hv, hfalse⟩
        obtain ⟨q, hq, hwatcher, hd, ha⟩ :=
          exists_imply hw (hp.store_over.mem hr hforces.mem) hr hforces
        refine .force hwatcher hd ha ?_
        simp only [hvisit, hv, hq, bind, Except.bind]
      | some b =>
        refine .conflict (fun m hm => ?_) (by simp only [hvisit, hv])
        by_cases hmo : m = other
        · subst hmo
          cases b with
          | false => exact hv
          | true => exact absurd hv hother
        · exact hfalse m hm hmo

/-! ## All visits -/

/-- The clauses of `refs` are left to be visited in the list of `l`, which is false, and those of
`done` are kept. -/
structure Opened (store : ClauseStore) (code : Nat) (l : Literal) (done refs : List ClauseRef)
    (p : Progress) : Prop extends Fits store p where
  list : p.trail.code l = some code
  value : p.trail.value l = some false
  listed : (p.watcher.setList code (done ++ refs)).Listed store p.trail

namespace Opened

theorem list_lt (hp : Opened store code l done refs p) : code < p.watcher.lists.size := by
  rw [hp.shape.lists_size]
  exact Trail.code_lt hp.wellFormed.sorted hp.list

theorem watching (hp : Opened store code l done refs p) (hr : r ∈ refs) :
    p.watcher.Watching store r l := by
  have := hp.listed.mem_iff hp.list (r := r)
    (by rw [Watcher.getElem?_setList hp.list_lt, if_pos rfl])
  exact this.mp (List.mem_toArray.mpr (List.mem_append_right done hr))

/-- The visited clause stays. -/
theorem keep (hp : Opened store code l done (r :: rest) p) :
    Opened store code l (done ++ [r]) rest p :=
  ⟨hp.toFits, hp.list, hp.value, by simpa using hp.listed⟩

/-- The visited clause moves to another list. -/
theorem move {w : Watcher} {m : Literal} (hp : Opened store code l done (r :: rest) p)
    (hmoves : p.watcher.Moves w store p.trail r l m other)
    (hpending : w.pending = p.watcher.pending) :
    Opened store code l done rest { p with watcher := w } :=
  ⟨⟨hp.store_over, hp.wellFormed, hmoves.watches_size.trans hp.shape.watches_size,
    hmoves.lists_size.trans hp.shape.lists_size, hpending ▸ hp.shape.pending⟩, hp.list, hp.value,
    hmoves.listed hp.list_lt hp.listed hp.wellFormed.sorted hp.list⟩

/-- Assignments that leave the watcher as it is. -/
theorem derives (hp : Opened store code l done refs p) (hd : p.Derives store q)
    (hwatcher : q.watcher = p.watcher) : Opened store code l done refs q := by
  have hcont := hd.continues hp.wellFormed
  refine ⟨hp.toFits.derives hd (hwatcher ▸ hp.shape), ?_, hcont.value_old hp.value, ?_⟩
  · rw [Trail.code_congr hcont.vars, hp.list]
  · rw [hwatcher]
    exact hp.listed.congr hcont.vars

end Opened

/-- What visiting the clauses `refs` in the list of `l` comes to: the lists are right once those
that were kept are put back. -/
structure Closes (store : ClauseStore) (code : Nat) (l : Literal) (done : List ClauseRef)
    (p : Progress) (v : Visit) : Prop where
  derives : p.Derives store v.progress
  head : v.progress.watcher.head = p.watcher.head
  pending : v.progress.watcher.pending = p.watcher.pending
  opened : Opened store code l done v.kept v.progress
  falsified : ∀ {r}, v.conflict = some r → ∃ c, store.get? r = some c ∧ v.progress.trail.Falsifies c

namespace Closes

variable {v : Visit}

/-- What was derived before the visit counts as derived by it. -/
theorem prepend (hd : p.Derives store q) (hhead : q.watcher.head = p.watcher.head)
    (hpending : q.watcher.pending = p.watcher.pending) (hv : Closes store code l done q v) :
    Closes store code l done p v :=
  ⟨hd.trans hv.derives, hv.head.trans hhead, hv.pending.trans hpending, hv.opened, hv.falsified⟩

/-- A clause that was kept before the visit may count as kept by it. -/
theorem keep (hv : Closes store code l (done ++ [r]) p v) :
    Closes store code l done p { v with kept := r :: v.kept } :=
  ⟨hv.derives, hv.head, hv.pending, ⟨hv.opened.toFits, hv.opened.list, hv.opened.value,
    by simpa using hv.opened.listed⟩, hv.falsified⟩

end Closes

/-- A visit succeeds, whatever the clauses of the list have come to. -/
theorem exists_visit (done refs : List ClauseRef) (hp : Opened store code l done refs p) :
    ∃ v, visit store l refs p = .ok v ∧ Closes store code l done p v := by
  induction refs generalizing p done with
  | nil => exact ⟨⟨[], none, p⟩, rfl, .refl p, rfl, rfl, hp, by simp⟩
  | cons r rest ih =>
    obtain ⟨c, x, hr, hx, hhas⟩ := hp.watching List.mem_cons_self
    obtain ⟨i, j, other, -, -, -, -, hstep⟩ :=
      visit_step rest hp.toFits hr hx (hp.listed.valid hr hx) hhas hp.value
    cases hstep with
    | stay _ hvisit =>
      obtain ⟨v, hv, hclosed⟩ := ih (done ++ [r]) hp.keep
      exact ⟨_, by rw [hvisit, hv]; rfl, hclosed.keep⟩
    | @move _ _ _ w _ _ _ hmoves hhead hpending _ hvisit =>
      obtain ⟨v, hv, hclosed⟩ := ih done (hp.move hmoves hpending)
      exact ⟨v, hvisit.trans hv,
        hclosed.prepend (q := { p with watcher := w }) (.of_eq rfl rfl) hhead hpending⟩
    | force hwatcher hd _ hvisit =>
      obtain ⟨v, hv, hclosed⟩ := ih (done ++ [r]) (hp.derives hd hwatcher).keep
      exact ⟨_, by rw [hvisit, hv]; rfl,
        (hclosed.prepend hd (by rw [hwatcher]) (by rw [hwatcher])).keep⟩
    | conflict hf hvisit =>
      refine ⟨_, hvisit, .refl p, rfl, rfl, hp, fun hrr => ?_⟩
      obtain rfl := Option.some.inj hrr
      exact ⟨c, hr, hf⟩

/-! ## A whole list -/

/-- The trail and the watcher fit the store, and the lists are right. -/
structure Consistent (store : ClauseStore) (p : Progress) : Prop extends Fits store p where
  listed : p.watcher.Listed store p.trail

namespace Consistent

/-- Assignments that leave the watcher as it is. -/
theorem derives (hp : Consistent store p) (hd : p.Derives store q)
    (hwatcher : q.watcher = p.watcher) : Consistent store q := by
  refine ⟨hp.toFits.derives hd (hwatcher ▸ hp.shape), ?_⟩
  rw [hwatcher]
  exact hp.listed.congr (hd.continues hp.wellFormed).vars

/-- Where the queue begins and what is pending does not matter for the lists. -/
theorem queue (hp : Consistent store p) (head : Nat) (pending : Array ClauseRef)
    (hpending : ∀ r ∈ pending, r.index < store.size) :
    Consistent store { p with watcher := { p.watcher with head, pending } } :=
  ⟨⟨hp.store_over, hp.wellFormed, hp.shape.watches_size, hp.shape.lists_size, hpending⟩,
    hp.listed.valid, hp.listed.mem_iff, hp.listed.nodup⟩

/-- The list of a false literal can be taken out and visited. -/
theorem exists_opened (hp : Consistent store p) (hl : p.trail.value l = some false) :
    ∃ code refs, p.trail.code l = some code ∧ p.watcher.lists[code]? = some refs ∧
      Opened store code l [] refs.toList (p.setList code []) := by
  have hw := hp.wellFormed
  obtain ⟨s, hs, -⟩ := hw.value_eq_false_iff.mp hl
  obtain ⟨code, hcode⟩ := Trail.exists_code hw.sorted (Trail.mem_vars_of_slot hs)
  have hlt : code < p.watcher.lists.size := by
    rw [hp.shape.lists_size]
    exact Trail.code_lt hw.sorted hcode
  have hrefs := Array.getElem?_eq_getElem hlt
  generalize p.watcher.lists[code] = refs at hrefs
  have hback : (p.watcher.setList code []).setList code ([] ++ refs.toList) = p.watcher := by
    rw [List.nil_append, Watcher.setList_setList, Watcher.setList_toList hrefs]
  exact ⟨code, refs, hcode, hrefs, hp.toFits.setList code [], hcode, hl, hback.symm ▸ hp.listed⟩

end Consistent

/-- Putting back what a visit has kept makes the lists right. -/
theorem Closes.consistent {v : Visit} (hv : Closes store code l [] p v) :
    Consistent store (v.progress.setList code v.kept) :=
  ⟨hv.opened.toFits.setList code v.kept, hv.opened.listed⟩

theorem falsify_eq {refs : Array ClauseRef} (hcode : p.trail.code l = some code)
    (hrefs : p.watcher.lists[code]? = some refs) :
    falsify store l p = (visit store l refs.toList (p.setList code [])).map fun v =>
      (v.conflict, v.progress.setList code v.kept) := by
  simp only [falsify, hcode, hrefs]
  rfl

/-- The clauses watching a false literal can be visited, and then the lists are right again. -/
theorem exists_falsify (hp : Consistent store p) (hl : p.trail.value l = some false) :
    ∃ o q, falsify store l p = .ok (o, q) ∧ p.Derives store q ∧
      q.watcher.head = p.watcher.head ∧ q.watcher.pending = p.watcher.pending ∧
      Consistent store q ∧
      ∀ {r}, o = some r → ∃ c, store.get? r = some c ∧ q.trail.Falsifies c := by
  obtain ⟨code, refs, hcode, hrefs, hopened⟩ := hp.exists_opened hl
  obtain ⟨v, hv, hclosed⟩ := exists_visit [] refs.toList hopened
  refine ⟨v.conflict, v.progress.setList code v.kept, ?_, hclosed.derives, hclosed.head,
    hclosed.pending, hclosed.consistent, hclosed.falsified⟩
  rw [falsify_eq hcode hrefs, hv]
  rfl

end Progress

end ClauseLearning
