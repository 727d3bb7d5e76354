import ClauseLearning.Engine.Watching

/-!
# A list is compacted in place

The clauses that go on watching a falsified literal can stay in the array that holds its list: each
is written to the next free position, which is never behind the one that is read. After a conflict
the rest of the array is copied down. What stands beyond the last clause that was kept is cut off in
the end.

* `Progress.copyDown`, `Progress.compact`: the two loops, with the positions they write and read.
* `Progress.compact_eq`: compacting keeps what a visit keeps, in the same order.
* `Progress.falsifyInPlace_eq`: so nothing changes for the lists.
-/

namespace ClauseLearning

namespace Progress

/-- Copies the entries from position `i` on to the positions from `kept` on, and counts on. -/
def copyDown (refs : Array ClauseRef) (kept i : Nat) : Array ClauseRef × Nat :=
  if h : i < refs.size then copyDown (refs.setIfInBounds kept refs[i]) (kept + 1) (i + 1)
  else (refs, kept)
termination_by refs.size - i
decreasing_by simp; omega

/-- Visits the clauses from position `i` on. The clauses that stay are written to the positions from
`kept` on. -/
def compact (store : ClauseStore) (l : Literal) (refs : Array ClauseRef) (kept i : Nat)
    (p : Progress) : Except Fault Visit :=
  if h : i < refs.size then do
    let r := refs[i]
    let c ← store.fetch r
    let w ← p.watcher.fetch r
    let isFirst := (← c.fetch w.first) == l
    let other ← c.fetch (if isFirst then w.second else w.first)
    match if p.trail.value other = some true then none else replacement p.trail c w with
    | some k =>
      let moved : Watch := if isFirst then ⟨k, w.second⟩ else ⟨w.first, k⟩
      compact store l refs kept (i + 1) (← p.rewatch r moved (← c.fetch k))
    | none =>
      let refs' := refs.setIfInBounds kept r
      match p.trail.value other with
      | some true => compact store l refs' (kept + 1) (i + 1) p
      | none => compact store l refs' (kept + 1) (i + 1) (← p.imply other r c)
      | some false =>
        let (refs', kept) := copyDown refs' (kept + 1) (i + 1)
        return ⟨(refs'.take kept).toList, some r, p⟩
  else return ⟨(refs.take kept).toList, none, p⟩
termination_by refs.size - i
decreasing_by
  · omega
  · rw [Array.size_setIfInBounds]; omega
  · rw [Array.size_setIfInBounds]; omega

/-- `falsify` with the list compacted in place. -/
def falsifyInPlace (store : ClauseStore) (l : Literal) (p : Progress) :
    Except Fault (Option ClauseRef × Progress) :=
  match p.trail.code l with
  | none => .ok (none, p)
  | some code =>
    match p.watcher.lists[code]? with
    | none => .error (.noWatchList code)
    | some refs => do
      let v ← compact store l refs 0 0 (p.setList code [])
      return (v.conflict, v.progress.setList code v.kept)

variable {store : ClauseStore} {p : Progress} {l : Literal} {refs : Array ClauseRef} {r : ClauseRef}
  {kept i : Nat}

/-- Writing an entry that has been read does not touch those that are still to be read. -/
theorem drop_setIfInBounds (hi : kept ≤ i) :
    (refs.setIfInBounds kept r).toList.drop (i + 1) = refs.toList.drop (i + 1) := by
  rw [Array.toList_setIfInBounds, List.drop_set_of_lt (by omega)]

theorem take_setIfInBounds (hi : kept < refs.size) :
    (refs.setIfInBounds kept r).toList.take (kept + 1) = refs.toList.take kept ++ [r] := by
  rw [Array.toList_setIfInBounds, List.take_add_one, List.take_set_of_le (Nat.le_refl _),
    List.getElem?_set_self (by simpa using hi)]
  rfl

/-- The entries that were kept and the entries that were left to read stand one after the other. -/
theorem take_copyDown (hi : kept ≤ i) :
    ((copyDown refs kept i).1.take (copyDown refs kept i).2).toList =
      refs.toList.take kept ++ refs.toList.drop i := by
  fun_induction copyDown refs kept i with
  | case1 refs kept i h ih =>
    rw [ih (by omega), take_setIfInBounds (by omega), drop_setIfInBounds hi, List.append_assoc,
      List.drop_eq_getElem_cons (l := refs.toList) h]
    rfl
  | case2 refs kept i h => simp [Nat.not_lt.mp h]

/-- What a visit comes to when the clauses `ks` were kept before it. -/
def Visit.behind (ks : List ClauseRef) (v : Visit) : Visit := { v with kept := ks ++ v.kept }

theorem Visit.behind_nil : Visit.behind [] = id := rfl

theorem Visit.behind_append (ks : List ClauseRef) (r : ClauseRef) :
    Visit.behind (ks ++ [r]) = Visit.behind ks ∘ fun v => { v with kept := r :: v.kept } := by
  funext v
  simp only [Visit.behind, Function.comp, List.append_assoc, List.singleton_append]

/-- A clause that stays is written behind those that were kept. -/
theorem map_behind (x : Except Fault Visit) (hi : kept < refs.size) :
    Visit.behind ((refs.setIfInBounds kept r).toList.take (kept + 1)) <$> x =
      Visit.behind (refs.toList.take kept) <$>
        (fun v : Visit => { v with kept := r :: v.kept }) <$> x := by
  rw [take_setIfInBounds hi, Visit.behind_append, comp_map]

/-- Compacting a list in place comes to the same as visiting it. -/
theorem compact_eq (store : ClauseStore) (l : Literal) (p : Progress) (hi : kept ≤ i) :
    compact store l refs kept i p =
      Visit.behind (refs.toList.take kept) <$> visit store l (refs.toList.drop i) p := by
  -- The induction is on the number of entries that are left to read.
  induction hn : refs.size - i generalizing refs kept i p with
  | zero =>
    have hdrop : refs.toList.drop i = [] := List.drop_eq_nil_of_le (by simp; omega)
    rw [compact, dif_neg (by omega), hdrop, visit]
    exact congrArg (fun ks => Except.ok (Visit.mk ks none p)) (by simp)
  | succ n ih =>
    have hlt : i < refs.size := by omega
    have hkept : kept < refs.size := by omega
    rw [compact, dif_pos hlt, List.drop_eq_getElem_cons (l := refs.toList) (by simpa using hlt),
      visit, Array.getElem_toList]
    generalize refs[i] = r
    simp only [map_bind]
    refine bind_congr fun c => bind_congr fun w => bind_congr fun a => bind_congr fun other => ?_
    -- The entry stays or goes; then the loop goes on behind it.
    have hstay : ∀ p, compact store l (refs.setIfInBounds kept r) (kept + 1) (i + 1) p =
        Visit.behind (refs.toList.take kept) <$>
          (fun v : Visit => { v with kept := r :: v.kept }) <$>
            visit store l (refs.toList.drop (i + 1)) p := by
      intro p
      rw [ih p (by omega) (by simp; omega), drop_setIfInBounds hi, map_behind _ hkept]
    have hgo : ∀ p, compact store l refs kept (i + 1) p =
        Visit.behind (refs.toList.take kept) <$> visit store l (refs.toList.drop (i + 1)) p :=
      fun p => ih p (by omega) (by omega)
    by_cases hother : p.trail.value other = some true
    · simp only [hother, ↓reduceIte, hstay, bind_pure_comp]
    · simp only [hother, ↓reduceIte]
      cases replacement p.trail c w with
      | some k =>
        simp only [map_bind, hgo]
      | none =>
        cases hv : p.trail.value other with
        | none => simp only [hstay, map_bind, bind_pure_comp]
        | some b =>
          cases b with
          | true => exact absurd hv hother
          | false =>
            refine congrArg (fun ks => Except.ok (Visit.mk ks (some r) p)) ?_
            rw [take_copyDown (by omega), take_setIfInBounds hkept, drop_setIfInBounds hi,
              List.append_assoc, List.singleton_append]

/-- Compacted in place or not, the list is the same afterwards. -/
theorem falsifyInPlace_eq (store : ClauseStore) (l : Literal) (p : Progress) :
    falsifyInPlace store l p = falsify store l p := by
  have hcompact : ∀ refs p, compact store l refs 0 0 p = visit store l refs.toList p := by
    intro refs p
    rw [compact_eq store l p (Nat.le_refl 0), List.drop_zero, List.take_zero, Visit.behind_nil,
      id_map]
  cases hcode : p.trail.code l with
  | none => simp only [falsifyInPlace, falsify, hcode]
  | some code =>
    cases hrefs : p.watcher.lists[code]? with
    | none => simp only [falsifyInPlace, falsify, hcode, hrefs]
    | some refs => simp only [falsifyInPlace, falsify, hcode, hrefs, hcompact]

end Progress

end ClauseLearning
