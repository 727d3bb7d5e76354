import ClauseLearning.Proofs.Propagation.UnitStep
import ClauseLearning.Proofs.Propagation.Watches

/-!
# Guarded clauses

A watch guards a clause up to a position of the trail (`Trail.Guard`): if a watched literal was
falsified before the position, then the other one is true, at a level not above. So undoing levels
never leaves a false watched literal beside one that is not true (`Guard.backtrack`), and a clause
guarded up to the end of the trail is settled (`Guard.settles`).

`Trail.levelStart` is the position where the current level begins. A conflict may leave clauses
guarded up to there only, which is enough for every lower level.
-/

namespace ClauseLearning

namespace Trail

variable {t t' : Trail} {l m : Literal} {c : Clause} {x : Watch} {s : Slot} {v : Var} {h h' k : Nat}

/-! ## The current level -/

/-- The position of the first assignment of the current level. -/
def levelStart (t : Trail) : Nat := (t.starts[t.level - 1]?).getD 0

theorem levelStart_of_level_eq_zero (hl : t.level = 0) : t.levelStart = 0 := by
  have : t.starts[t.level - 1]? = none := Array.getElem?_eq_none (by simp only [level] at hl; omega)
  rw [levelStart, this, Option.getD_none]

theorem levelStart_eq (hl : 0 < t.level) : t.starts[t.level - 1]? = some t.levelStart := by
  have hlt : t.level - 1 < t.starts.size := by simp only [level] at *; omega
  rw [levelStart, Array.getElem?_eq_getElem hlt, Option.getD_some]

theorem levelStart_congr (hst : t'.starts = t.starts) : t'.levelStart = t.levelStart := by
  rw [levelStart, levelStart, level, level, hst]

theorem levelStart_le_size (hw : t.WellFormed) : t.levelStart ≤ t.size := by
  rcases Nat.eq_zero_or_pos t.level with hl | hl
  · rw [levelStart_of_level_eq_zero hl]
    exact Nat.zero_le _
  · exact Nat.le_of_lt (hw.start_lt (levelStart_eq hl))

/-- The lower levels come before the current one. -/
theorem position_lt_levelStart (hw : t.WellFormed) (hs : t.slot v = some s)
    (hl : s.level < t.level) : s.position < t.levelStart := by
  have := hw.lt_level_iff hs (levelStart_eq (Nat.zero_lt_of_lt hl))
  omega

/-- What comes after the start of the current level belongs to it. -/
theorem level_eq_of_levelStart_le (hw : t.WellFormed) (hs : t.slot v = some s)
    (hp : t.levelStart ≤ s.position) : s.level = t.level := by
  apply Nat.le_antisymm (hw.level_le hs)
  apply Nat.le_of_not_lt
  intro hlt
  have := position_lt_levelStart hw hs hlt
  omega

theorem size_backtrack_le_levelStart (hw : t.WellFormed) (hk : k < t.level) :
    (t.backtrack k).size ≤ t.levelStart := by
  have hq : t.starts[k]? = some t.starts[k] := Array.getElem?_eq_getElem hk
  rw [size_backtrack hw hq]
  exact hw.start_mono hq (levelStart_eq (by omega)) (by omega)

/-! ## Guards -/

/-- If `l` was falsified before position `h`, then `m` is true, at a level not above. -/
def Guards (t : Trail) (h : Nat) (l m : Literal) : Prop :=
  ∀ {s}, t.slot l.var = some s → s.literal = l.negate → s.position < h →
    ∃ s', t.slot m.var = some s' ∧ s'.literal = m ∧ s'.level ≤ s.level

/-- The watch guards the clause up to position `h`. A clause of one literal is true at the root
level. -/
structure Guard (t : Trail) (h : Nat) (c : Clause) (x : Watch) : Prop where
  size_ne_zero : c.size ≠ 0
  root : c.size = 1 → ∃ l ∈ c, ∃ s, t.slot l.var = some s ∧ s.literal = l ∧ s.level = 0
  pair : ∀ {i j l m}, x.Pair i j → i ≠ j → c.literals[i]? = some l → c.literals[j]? = some m →
    t.Guards h l m

namespace Guard

theorem mono (hg : t.Guard h c x) (hle : h' ≤ h) : t.Guard h' c x :=
  ⟨hg.size_ne_zero, hg.root, fun hp hij hl hm _ hs hneg hpos =>
    hg.pair hp hij hl hm hs hneg (Nat.lt_of_lt_of_le hpos hle)⟩

/-- Further assignments do not break a guard. -/
theorem extend (hg : t.Guard h c x) (hold : ∀ {v s}, t.slot v = some s → t'.slot v = some s)
    (hlt : ∀ {v s}, t'.slot v = some s → s.position < h → t.slot v = some s) :
    t'.Guard h c x where
  size_ne_zero := hg.size_ne_zero
  root hsize := by
    obtain ⟨l, hl, s, hs, hroot⟩ := hg.root hsize
    exact ⟨l, hl, s, hold hs, hroot⟩
  pair hp hij hl hm s hs hneg hpos := by
    obtain ⟨s', hs', htrue⟩ := hg.pair hp hij hl hm (hlt hs hpos) hneg hpos
    exact ⟨s', hold hs', htrue⟩

theorem continues (hg : t.Guard h c x) (hc : t.Continues t') (hh : h ≤ t.size) : t'.Guard h c x :=
  hg.extend hc.slot_old fun hs hpos => hc.slot_of_lt hs (Nat.lt_of_lt_of_le hpos hh)

theorem appends (hg : t.Guard h c x) {r : Reason} (ha : t.Appends l r t') (hh : h ≤ t.size) :
    t'.Guard h c x :=
  hg.extend ha.slot_old fun {v s} hs hpos => by
    rcases ha.slot_cases hs with ⟨-, rfl⟩ | hs
    · exact absurd hpos (Nat.not_lt.mpr hh)
    · exact hs

/-- A clause guarded up to the current level stays guarded, to the end, when this level is undone.
-/
theorem backtrack (hw : t.WellFormed) (hg : t.Guard t.levelStart c x) (hk : k < t.level) :
    (t.backtrack k).Guard (t.backtrack k).size c x where
  size_ne_zero := hg.size_ne_zero
  root hsize := by
    obtain ⟨l, hl, s, hs, hlit, hroot⟩ := hg.root hsize
    exact ⟨l, hl, s, (slot_backtrack_eq_some_iff hw).mpr ⟨hs, by omega⟩, hlit, hroot⟩
  pair hp hij hl hm s hs hneg _ := by
    obtain ⟨hs, hle⟩ := (slot_backtrack_eq_some_iff hw).mp hs
    have hpos := position_lt_levelStart hw hs (by omega)
    obtain ⟨s', hs', hlit, hlevel⟩ := hg.pair hp hij hl hm hs hneg hpos
    exact ⟨s', (slot_backtrack_eq_some_iff hw).mpr ⟨hs', by omega⟩, hlit, hlevel⟩

/-- The two watched literals guard the clause when each guards it from the other. -/
theorem of_pair {i j : Nat} (hp : x.Pair i j) (hi : c.literals[i]? = some l)
    (hj : c.literals[j]? = some m) (hsize : c.size ≠ 1) (hlm : t.Guards h l m)
    (hml : t.Guards h m l) : t.Guard h c x where
  size_ne_zero := Nat.ne_of_gt (Nat.zero_lt_of_lt (Clause.lt_size hi))
  root h := absurd h hsize
  pair {i' j' l' m'} hp' _ hi' hj' := by
    rcases hp.cases_pair hp' with ⟨rfl, rfl⟩ | ⟨rfl, rfl⟩
    · obtain rfl := Option.some.inj (hi.symm.trans hi')
      obtain rfl := Option.some.inj (hj.symm.trans hj')
      exact hlm
    · obtain rfl := Option.some.inj (hj.symm.trans hi')
      obtain rfl := Option.some.inj (hi.symm.trans hj')
      exact hml

/-- A clause guarded up to the end of the trail is settled. -/
theorem settles (hw : t.WellFormed) (hvalid : x.Valid c) (hg : t.Guard t.size c x) :
    t.Settles c := by
  obtain ⟨hi, hj, hij⟩ := hvalid hg.size_ne_zero
  by_cases hsize : c.size = 1
  · obtain ⟨l, hl, s, hs, hlit, -⟩ := hg.root hsize
    exact .inl ⟨l, hl, value_eq_true_iff.mpr ⟨s, hs, hlit⟩⟩
  have hne : x.first ≠ x.second := fun heq => hsize (hij heq)
  obtain ⟨l, hl⟩ := Clause.exists_literal hi
  obtain ⟨m, hm⟩ := Clause.exists_literal hj
  have hlc := Clause.mem_of_getElem? hl
  have hmc := Clause.mem_of_getElem? hm
  -- A false watched literal leaves the other one true; else both are unassigned or one is true.
  have key : ∀ {i j l m}, x.Pair i j → i ≠ j → c.literals[i]? = some l →
      c.literals[j]? = some m → t.value l = some false → t.value m = some true := by
    intro i j l m hp hij hl hm hv
    obtain ⟨s, hs, hneg⟩ := hw.value_eq_false_iff.mp hv
    obtain ⟨s', hs', hlit, -⟩ := hg.pair hp hij hl hm hs hneg (hw.slot_lt hs)
    exact value_eq_true_iff.mpr ⟨s', hs', hlit⟩
  cases hvl : t.value l with
  | some b =>
    cases b with
    | true => exact .inl ⟨l, hlc, hvl⟩
    | false => exact .inl ⟨m, hmc, key x.pair_self hne hl hm hvl⟩
  | none =>
    cases hvm : t.value m with
    | some b =>
      cases b with
      | true => exact .inl ⟨m, hmc, hvm⟩
      | false => exact .inl ⟨l, hlc, key x.pair_self.symm (Ne.symm hne) hm hl hvm⟩
    | none => exact .inr ⟨l, hlc, m, hmc, Clause.literal_ne hl hm hne, hvl, hvm⟩

end Guard

end Trail

namespace Watcher

variable {store : ClauseStore} {t t' : Trail} {w w' : Watcher} {r : ClauseRef} {h h' : Nat}

/-- The watch of the clause guards it up to position `h`. -/
def Guarded (w : Watcher) (store : ClauseStore) (t : Trail) (h : Nat) (r : ClauseRef) : Prop :=
  ∀ ⦃c x⦄, store.get? r = some c → w.watches[r.index]? = some x → t.Guard h c x

theorem guarded_of_guard {c : Clause} {x : Watch} (hr : store.get? r = some c)
    (hx : w.watches[r.index]? = some x) (hg : t.Guard h c x) : w.Guarded store t h r := by
  intro d y hd hy
  obtain rfl := Option.some.inj (hr.symm.trans hd)
  obtain rfl := Option.some.inj (hx.symm.trans hy)
  exact hg

theorem Guarded.congr (hw : w'.watches[r.index]? = w.watches[r.index]?)
    (hg : w.Guarded store t h r) : w'.Guarded store t h r :=
  fun _ _ hr hx => hg hr (hw ▸ hx)

theorem Guarded.mono (hg : w.Guarded store t h r) (hle : h' ≤ h) : w.Guarded store t h' r :=
  fun _ _ hr hx => (hg hr hx).mono hle

theorem Guarded.continues (hg : w.Guarded store t h r) (hc : t.Continues t') (hh : h ≤ t.size) :
    w.Guarded store t' h r := fun _ _ hr hx => (hg hr hx).continues hc hh

theorem guarded_of_not_mem {rest : List ClauseRef} (hg : w.Guarded store t h r)
    (hothers : ∀ r', r' ∉ r :: rest → w.Guarded store t h r') :
    ∀ r', r' ∉ rest → w.Guarded store t h r' := by
  intro r' hr'
  by_cases hrr : r' = r
  · exact hrr ▸ hg
  · exact hothers r' fun hmem => (List.mem_cons.mp hmem).elim hrr hr'

/-- Where every clause is guarded up to the end of the trail, all are settled. -/
theorem settles_of_guarded (hw : t.WellFormed) (hshape : w.Shape store t.vars)
    (hlisted : w.Listed store t) (hg : ∀ r, w.Guarded store t t.size r) :
    ∀ c ∈ store.clauses, t.Settles c := by
  intro c hc
  obtain ⟨r, hr⟩ := ClauseStore.mem_clauses_iff.mp hc
  obtain ⟨x, hx⟩ := hshape.exists_watch hr
  exact (hg r hr hx).settles hw (hlisted.valid hr hx)

end Watcher

end ClauseLearning
