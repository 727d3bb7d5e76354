import ClauseLearning.Proofs.Engine.Implications
import ClauseLearning.Proofs.Trail.Levels

/-!
# Implication points

At a conflict, the implication graph of the current level leads from the decision of the level to
the conflict. A literal on all its paths is an implication point
(`Trail.IsImplicationPoint`). Analysis learns the negation of one, and resolving the latest
assignment first leads to the last of them.

* `ConflictPath.extend`: every literal of the level comes from its decision.
* `Cuts.of_resolves`: the clause under resolution negates a literal of every path.
* `Escapes.of_resolves`: resolving the latest assignment first passes no implication point.
* `Session.learned_implicationPoint`: what the learned clause negates.
-/

namespace ClauseLearning

namespace Trail

variable {store : ClauseStore} {t : Trail} {order : ResolutionOrder} {c e e' : Clause}
  {d l m u w x : Literal} {path : List Literal} {r : ClauseRef} {v : Var} {s : Slot}

/-! ## Paths to the conflict -/

/-- A path of the implication graph of the current level, from a literal to the conflict with the
clause `c`: the conflict follows from the negated literals of the clause. -/
inductive ConflictPath (store : ClauseStore) (t : Trail) (c : Clause) :
    Literal → List Literal → Prop
  | last {x : Literal} (hx : t.AssignsAt x t.level) (hc : x.negate ∈ c) :
      ConflictPath store t c x [x]
  | edge {x y : Literal} {path : List Literal} (hx : t.AssignsAt x t.level)
      (hxy : t.Implies store x y) (h : ConflictPath store t c y path) :
      ConflictPath store t c x (x :: path)

/-- Every path from `d` to the conflict passes `u`. -/
def IsImplicationPoint (store : ClauseStore) (t : Trail) (c : Clause) (d u : Literal) : Prop :=
  ∀ path, t.ConflictPath store c d path → u ∈ path

namespace ConflictPath

theorem assignsAt (h : t.ConflictPath store c x path) (hu : u ∈ path) :
    t.AssignsAt u t.level := by
  induction h with
  | last hx _ =>
    obtain rfl := List.mem_singleton.mp hu
    exact hx
  | edge hx _ _ ih =>
    rcases List.mem_cons.mp hu with rfl | hu
    · exact hx
    · exact ih hu

theorem mem (h : t.ConflictPath store c x path) : x ∈ path := by
  cases h with
  | last _ _ => exact List.mem_cons_self
  | edge _ _ _ => exact List.mem_cons_self

/-- The path ends at a literal that the conflict follows from. -/
theorem exists_negate_mem (h : t.ConflictPath store c x path) : ∃ u ∈ path, u.negate ∈ c := by
  induction h with
  | last _ hc => exact ⟨_, List.mem_cons_self, hc⟩
  | edge _ _ _ ih =>
    obtain ⟨u, hu, huc⟩ := ih
    exact ⟨u, List.mem_cons_of_mem _ hu, huc⟩

/-- Behind the first literal of a path come literals that earlier ones imply. -/
theorem eq_or_exists_implies (h : t.ConflictPath store c x path) (hu : u ∈ path) :
    u = x ∨ ∃ w ∈ path, t.Implies store w u := by
  induction h with
  | last _ _ => exact .inl (List.mem_singleton.mp hu)
  | edge _ hxy _ ih =>
    rcases List.mem_cons.mp hu with rfl | hu
    · exact .inl rfl
    · rcases ih hu with rfl | ⟨w, hw, hwu⟩
      · exact .inr ⟨_, List.mem_cons_self, hxy⟩
      · exact .inr ⟨w, List.mem_cons_of_mem _ hw, hwu⟩

end ConflictPath

/-! ## Every literal of the level comes from its decision -/

section Decision

variable (hw : t.WellFormed) (hj : t.Justified store) (hsettled : t.SettledBelow store)

include hw hj hsettled

/-- An implied literal above the root level is implied by a literal of its level. -/
theorem WellFormed.exists_implies (hs : t.slot v = some s) (hr : s.reason = .clause r)
    (hpos : 0 < s.level) : ∃ y, t.AssignsAt y s.level ∧ t.Implies store y s.literal := by
  obtain ⟨c, hc, hreason⟩ := hj hs hr
  have hlevel := hw.level_of_isReason hreason hs fun k hk =>
    hsettled k (Nat.lt_of_lt_of_le hk (hw.level_le hs)) c (ClauseStore.mem_clauses_iff.mpr ⟨r, hc⟩)
  obtain ⟨m, hm, hne, s', hs', hlevel'⟩ := exists_level_eq (hlevel ▸ hpos)
  obtain ⟨u, hu, hlit, -⟩ := hreason.2 m hm hne
  obtain rfl := Option.some.inj (hs'.symm.trans hu)
  obtain rfl := hw.literal_var hs
  refine ⟨m.negate, hw.assignsAt_iff_slot.mpr ⟨s', hs', hlit, hlevel'.trans hlevel.symm⟩,
    implies_iff_slot.mpr ⟨s, r, c, hs, rfl, hr, hc, ?_⟩⟩
  rw [Literal.negate_negate]
  exact ⟨hm, hne⟩

/-- A path to the conflict goes on backwards to the decision of the level, over earlier literals. -/
theorem ConflictPath.extend (hd : t.decisions.getLast? = some d)
    (h : t.ConflictPath store c x path) :
    ∃ before, t.ConflictPath store c d (before ++ path) ∧ ∀ w ∈ before, t.Precedes w.var x.var := by
  obtain ⟨s, hs, hlit, hlevel⟩ := hw.assignsAt_iff_slot.mp (h.assignsAt h.mem)
  -- On the position of the first literal.
  induction hp : s.position using Nat.strongRecOn generalizing x path s with
  | ind p ih =>
    obtain ⟨sd, hsd, hlitd, hreasond, hleveld⟩ := hw.slot_of_getLast?_decisions hd
    cases hr : s.reason with
    | decision =>
      have hvar := hw.decision_unique hs hsd hr hreasond (hlevel.trans hleveld.symm)
      rw [hvar, hsd] at hs
      obtain rfl := Option.some.inj hs
      obtain rfl : x = d := hlit.symm.trans hlitd
      exact ⟨[], h, by simp⟩
    | clause r =>
      have hpos := hw.level_pos_of_decision hsd hreasond
      obtain ⟨y, hy, hyx⟩ := hw.exists_implies hj hsettled hs hr (by omega)
      rw [hlevel] at hy
      rw [hlit] at hyx
      obtain ⟨s', hs', hlit', hlevel'⟩ := hw.assignsAt_iff_slot.mp hy
      have hbefore := hw.precedes_of_implies hj hyx
      have hlt : s'.position < p := by
        obtain ⟨u, u', hu, hu', hlt⟩ := precedes_iff_slot.mp hbefore
        obtain rfl := Option.some.inj (hs'.symm.trans hu)
        obtain rfl := Option.some.inj (hs.symm.trans hu')
        exact hp ▸ hlt
      obtain ⟨before, hpath, hall⟩ := ih s'.position hlt (.edge hy hyx h) s' hs' hlit' hlevel' rfl
      refine ⟨before ++ [y], by simpa using hpath, fun w hwmem => ?_⟩
      rcases List.mem_append.mp hwmem with hwmem | hwmem
      · exact (hall w hwmem).trans hbefore
      · obtain rfl := List.mem_singleton.mp hwmem
        exact hbefore

end Decision

/-! ## The clause under resolution cuts all paths -/

/-- The clause negates a literal of every path from `d` to the conflict with `c`. -/
def Cuts (store : ClauseStore) (t : Trail) (c : Clause) (d : Literal) (e : Clause) : Prop :=
  ∀ path, t.ConflictPath store c d path → ∃ u ∈ path, u.negate ∈ e

section Cuts

variable (hw : t.WellFormed) (hj : t.Justified store)

include hw hj

/-- A resolution replaces a literal by those that imply it, and every path that passes the literal
passes one of these. -/
theorem Cuts.of_resolves (hd : t.decisions.getLast? = some d) (hf : t.Falsifies e)
    (hcuts : t.Cuts store c d e) (h : Analysis.Resolves store t order e e') :
    t.Cuts store c d e' := by
  obtain @⟨l, r, f, -, hpivot, hfr⟩ := h
  obtain ⟨hl, s, hs, -, hr, -⟩ := Analysis.slot_of_pivot hj hpivot hfr
  intro path hpath
  obtain ⟨u, hu, hue⟩ := hcuts path hpath
  by_cases hul : u.negate = l
  · have huvar : u.var = l.var := by rw [← hul, Literal.negate_var]
    rcases hpath.eq_or_exists_implies hu with rfl | ⟨w, hwp, hwu⟩
    · obtain ⟨sd, hsd, -, hdecision, -⟩ := hw.slot_of_getLast?_decisions hd
      rw [huvar, hs] at hsd
      obtain rfl := Option.some.inj hsd
      rw [hr] at hdecision
      cases hdecision
    · have hbefore := hw.precedes_of_implies hj hwu
      obtain ⟨s', r', f', hs', -, hr', hf', hwf, -⟩ := implies_iff_slot.mp hwu
      rw [huvar] at hs'
      obtain rfl := Option.some.inj (hs.symm.trans hs')
      obtain rfl := Reason.clause.inj (hr.symm.trans hr')
      obtain rfl := Option.some.inj (hfr.symm.trans hf')
      refine ⟨w, hwp, Clause.mem_resolve.mpr ⟨.inr hwf, fun hwvar => ?_⟩⟩
      rw [Literal.negate_var] at hwvar
      rw [hwvar, huvar] at hbefore
      exact not_precedes_self _ hbefore
  · exact ⟨u, hu, Clause.mem_resolve.mpr ⟨.inl hue, fun hv => hul (hf.eq_of_var hw hue hl hv)⟩⟩

/-- So what the conflict is resolved to still cuts all paths. -/
theorem Cuts.of_resolutions (hd : t.decisions.getLast? = some d)
    (hc : Analysis.Conflicting store t c)
    (h : Relation.ReflTransGen (Analysis.Resolves store t order) c e) : t.Cuts store c d e := by
  induction h with
  | refl => exact fun _ hpath => hpath.exists_negate_mem
  | tail hrun h ih => exact ih.of_resolves hw hj hd (hc.of_resolutions hw hj hrun).falsified h

omit hj

/-- If a single literal of the level is left, all paths pass it. -/
theorem Cuts.isImplicationPoint (hcuts : t.Cuts store c d e)
    (hat : Analysis.atLevel t e = [u.negate]) : t.IsImplicationPoint store c d u := by
  intro path hpath
  obtain ⟨x, hx, hxe⟩ := hcuts path hpath
  obtain ⟨s, hs, -, hlevel⟩ := hw.assignsAt_iff_slot.mp (hpath.assignsAt hx)
  have hmem : x.negate ∈ Analysis.atLevel t e := Analysis.mem_atLevel.mpr ⟨hxe, s, hs, hlevel⟩
  rw [hat, List.mem_singleton] at hmem
  exact Literal.negate_inj hmem ▸ hx

end Cuts

/-! ## The latest assignment first -/

/-- From each literal of the level that the clause negates, the conflict is reached without passing
`w` later on. -/
def Escapes (store : ClauseStore) (t : Trail) (c : Clause) (w : Literal) (e : Clause) : Prop :=
  ∀ x, t.AssignsAt x t.level → x.negate ∈ e →
    ∃ rest, t.ConflictPath store c x (x :: rest) ∧ w ∉ rest

section Escapes

variable (hw : t.WellFormed)

include hw

/-- What a literal of a falsified clause negates is on the trail. -/
theorem Falsifies.assignsAt (hf : t.Falsifies e) (hm : m ∈ Analysis.atLevel t e) :
    t.AssignsAt m.negate t.level := by
  obtain ⟨hme, s, hs, hlevel⟩ := Analysis.mem_atLevel.mp hm
  obtain ⟨s', hs', hlit⟩ := hf.exists_slot hw hme
  obtain rfl := Option.some.inj (hs.symm.trans hs')
  exact hw.assignsAt_iff_slot.mpr ⟨s, hs, hlit, hlevel⟩

/-- The pivot is the latest assignment of the level, as the decision is the earliest. -/
theorem precedes_of_pivot (hf : t.Falsifies e)
    (hpivot : Analysis.pivot t .reverseTrail e = some (l, r)) (hm : m ∈ Analysis.atLevel t e)
    (hne : m ≠ l) : t.Precedes m.var l.var := by
  obtain ⟨hl, s, hs, hlevel, -⟩ :=
    Analysis.mem_candidates.mp (Analysis.mem_candidates_of_pivot hpivot)
  obtain ⟨hme, s', hs', hlevel'⟩ := Analysis.mem_atLevel.mp hm
  have hle : s'.position ≤ s.position := by
    cases hr : s'.reason with
    | decision => exact hw.position_le_of_decision hs' hr hs (by omega)
    | clause r' =>
      have hcandidate := Analysis.mem_candidates.mpr ⟨hme, s', hs', hlevel', hr⟩
      exact Analysis.position_le_of_pivot hpivot hcandidate hs hs'
  refine precedes_iff_slot.mpr ⟨s', s, hs', hs, Nat.lt_of_le_of_ne hle fun heq => hne ?_⟩
  exact hf.eq_of_var hw hme hl (hw.eq_of_position hs' hs heq).1

variable (hj : t.Justified store) (hsettled : t.SettledBelow store)

include hj hsettled

/-- Every implication point on the way to a literal that the clause negates lies before it. -/
theorem Escapes.precedes (hd : t.decisions.getLast? = some d)
    (hpoint : t.IsImplicationPoint store c d w) (hescapes : t.Escapes store c w e)
    (hu : t.AssignsAt u t.level) (hue : u.negate ∈ e) (hne : w ≠ u) : t.Precedes w.var u.var := by
  obtain ⟨rest, hpath, hrest⟩ := hescapes u hu hue
  obtain ⟨before, hpath, hall⟩ := hpath.extend hw hj hsettled hd
  rcases List.mem_append.mp (hpoint _ hpath) with hmem | hmem
  · exact hall w hmem
  · rcases List.mem_cons.mp hmem with heq | hmem
    · exact absurd heq hne
    · exact absurd hmem hrest

/-- While another literal of the level is left, the pivot is no implication point: it is assigned
later, and implication points are assigned earlier. -/
theorem Escapes.ne_of_pivot (hd : t.decisions.getLast? = some d) (hf : t.Falsifies e)
    (hpoint : t.IsImplicationPoint store c d w) (hescapes : t.Escapes store c w e)
    (hlength : 1 < (Analysis.atLevel t e).length)
    (hpivot : Analysis.pivot t .reverseTrail e = some (l, r)) : l.negate ≠ w := by
  rintro rfl
  obtain ⟨m, hm, hne⟩ := Analysis.exists_atLevel_ne hlength l
  have hlater : t.Precedes m.var l.var := precedes_of_pivot hw hf hpivot hm hne
  have hme : m.negate.negate ∈ e := by
    rw [Literal.negate_negate]
    exact (Analysis.mem_atLevel.mp hm).1
  have hearlier := hescapes.precedes hw hj hsettled hd hpoint (hf.assignsAt hw hm) hme
    fun heq => hne (Literal.negate_inj heq).symm
  exact not_precedes_self _ (hlater.trans hearlier)

/-- Resolving the latest assignment first passes no implication point. -/
theorem Escapes.of_resolves (hd : t.decisions.getLast? = some d) (hf : t.Falsifies e)
    (hpoint : t.IsImplicationPoint store c d w) (hescapes : t.Escapes store c w e)
    (h : Analysis.Resolves store t .reverseTrail e e') : t.Escapes store c w e' := by
  obtain @⟨l, r, f, hlength, hpivot, hfr⟩ := h
  obtain ⟨hl, s, hs, hlevel, hr, -⟩ := Analysis.slot_of_pivot hj hpivot hfr
  have hne := Escapes.ne_of_pivot hw hj hsettled hd hf hpoint hescapes hlength hpivot
  have hat : t.AssignsAt l.negate t.level :=
    hf.assignsAt hw (Analysis.mem_atLevel.mpr ⟨hl, s, hs, hlevel⟩)
  intro x hx hxe
  obtain ⟨hmem, hvar⟩ := Clause.mem_resolve.mp hxe
  rcases hmem with hmem | hmem
  · exact hescapes x hx hmem
  · obtain ⟨rest, hpath, hrest⟩ := hescapes l.negate hat (by rwa [Literal.negate_negate])
    obtain ⟨s', hs', hlit⟩ := hf.exists_slot hw hl
    obtain rfl := Option.some.inj (hs.symm.trans hs')
    have himplies : t.Implies store x l.negate :=
      implies_iff_slot.mpr ⟨s, r, f, hs, hlit, hr, hfr, hmem, fun heq => hvar (by rw [heq]; rfl)⟩
    refine ⟨_, .edge hx himplies hpath, fun hw' => ?_⟩
    rcases List.mem_cons.mp hw' with heq | hw'
    · exact hne heq.symm
    · exact hrest hw'

theorem Escapes.of_resolutions (hd : t.decisions.getLast? = some d)
    (hc : Analysis.Conflicting store t c) (hpoint : t.IsImplicationPoint store c d w)
    (h : Relation.ReflTransGen (Analysis.Resolves store t .reverseTrail) c e) :
    t.Escapes store c w e := by
  induction h with
  | refl => exact fun x hx hxc => ⟨[], .last hx hxc, List.not_mem_nil⟩
  | tail hrun h ih =>
    exact ih.of_resolves hw hj hsettled hd (hc.of_resolutions hw hj hrun).falsified hpoint h

end Escapes

/-- The decision of the level leads to the conflict. -/
theorem exists_conflictPath (hw : t.WellFormed) (hj : t.Justified store)
    (hsettled : t.SettledBelow store) (hd : t.decisions.getLast? = some d)
    (hc : Analysis.Conflicting store t c) : ∃ path, t.ConflictPath store c d path := by
  obtain ⟨l, hl, hcurrent⟩ := hc.current
  have hat := hc.falsified.assignsAt hw (Analysis.mem_atLevel.mpr ⟨hl, hcurrent⟩)
  have hlast : t.ConflictPath store c l.negate [l.negate] :=
    .last hat (by rwa [Literal.negate_negate])
  obtain ⟨before, hpath, -⟩ := hlast.extend hw hj hsettled hd
  exact ⟨_, hpath⟩

end Trail

namespace Session

variable {σ : Type} {f : Formula} {config : Config} {policy : Policy σ} {memory : σ} {e : Engine σ}
  {r : ClauseRef}

/-- At each conflict above the root level, in every order of resolution, the learned clause has one
literal of the level, and this one negates an implication point: every path from the decision of the
level to the conflict passes it, and there is such a path. If the latest assignment is resolved
first, every other implication point was assigned before it. -/
theorem learned_implicationPoint (h : Reached f config policy memory ⟨e, some (.conflict r)⟩)
    (hlevel : 0 < e.trail.level) :
    ∃ c d, e.store.get? r = some c ∧ e.trail.decisions.getLast? = some d ∧
      (∃ path, e.trail.ConflictPath e.store c d path) ∧
      ∀ order, ∃ a u, analyze e.store e.trail order c = .ok a ∧
        Analysis.atLevel e.trail a.learned = [u.negate] ∧
        e.trail.IsImplicationPoint e.store c d u ∧
        (order = .reverseTrail → ∀ w, e.trail.IsImplicationPoint e.store c d w → w ≠ u →
          e.trail.Precedes w.var u.var) := by
  obtain ⟨hrunning, ⟨c, hc, hf⟩, -⟩ := h.invariant
  obtain ⟨hw, hj, hsettled⟩ := h.run_spec
  have hconflicting := Engine.conflicting hrunning hc hf hlevel
  obtain ⟨d, hd⟩ := hw.exists_getLast?_decisions hlevel
  refine ⟨c, d, hc, hd, Trail.exists_conflictPath hw hj hsettled hd hconflicting, fun order => ?_⟩
  obtain ⟨learned, l, k, hanalyze, hresolves, hreturns⟩ :=
    analyze_resolves hw hj order hlevel hconflicting
  have hat : Analysis.atLevel e.trail learned = [l.negate.negate] := by
    rw [hreturns.atLevel_eq, Literal.negate_negate]
  refine ⟨_, l.negate, hanalyze, hat, ?_, ?_⟩
  · exact (Trail.Cuts.of_resolutions hw hj hd hconflicting hresolves).isImplicationPoint hw hat
  · rintro rfl w hpoint hne
    have hescapes := Trail.Escapes.of_resolutions hw hj hsettled hd hconflicting hpoint hresolves
    have hl : l ∈ Analysis.atLevel e.trail learned := by simp [hreturns.atLevel_eq]
    refine hescapes.precedes hw hj hsettled hd hpoint (hreturns.falsified.assignsAt hw hl) ?_ hne
    rw [Literal.negate_negate]
    exact hreturns.mem

/-- Once `x1` and then `x2` are decided, `x2` implies `x3`, and the conflict follows from `x3` over
`x4` and `x5`. -/
def twoLevels : Formula :=
  let x : Nat → Bool → Literal := fun n b => ⟨⟨n + 1, n.succ_pos⟩, b⟩
  [.ofList [x 1 false, x 2 true], .ofList [x 0 false, x 2 false, x 3 true],
    .ofList [x 2 false, x 3 false, x 4 true], .ofList [x 3 false, x 4 false]]

/-- The session of a new engine for `twoLevels` at its first conflict. -/
def twoLevelsConflict : Session Bool := next^[6] ⟨.ofFormula twoLevels {}, none⟩

/-- The last literal that all paths from `x2` to the conflict pass is `x3`. -/
theorem twoLevels_learned :
    (twoLevelsConflict.state = some (.conflict ⟨3⟩) ∧ twoLevelsConflict.engine.trail.level = 2) ∧
    ∃ c d, twoLevelsConflict.engine.store.get? ⟨3⟩ = some c ∧ d.toInt = 2 ∧
      ∃ u : Literal, u.toInt = 3 ∧
        twoLevelsConflict.engine.trail.IsImplicationPoint twoLevelsConflict.engine.store c d u ∧
        ∀ w, twoLevelsConflict.engine.trail.IsImplicationPoint twoLevelsConflict.engine.store c d w →
          w ≠ u → twoLevelsConflict.engine.trail.Precedes w.var u.var := by
  have hstate : twoLevelsConflict.state = some (.conflict ⟨3⟩) := by decide +kernel
  have hlevel : twoLevelsConflict.engine.trail.level = 2 := by decide +kernel
  have hreached : Reached twoLevels {} (Phase.policy .positive) false
      ⟨twoLevelsConflict.engine, some (.conflict ⟨3⟩)⟩ := by
    rw [← hstate]
    exact reaches_iterate_next 6 _
  obtain ⟨c, d, hc, hd, -, horders⟩ := learned_implicationPoint hreached (by omega)
  obtain ⟨a, u, ha, hat, hpoint, hfirst⟩ := horders .reverseTrail
  have hdecision : twoLevelsConflict.engine.trail.decisions.getLast?.map Literal.toInt = some 2 := by
    decide +kernel
  have hlearned : (twoLevelsConflict.engine.store.get? ⟨3⟩).map (fun c =>
      (analyze twoLevelsConflict.engine.store twoLevelsConflict.engine.trail .reverseTrail c).map
        fun a => (Analysis.atLevel twoLevelsConflict.engine.trail a.learned).map
          (·.negate.toInt)) = some (.ok [3]) := by
    decide +kernel
  rw [hd] at hdecision
  simp only [hc, ha, hat, Option.map_some, Except.map, List.map_cons, List.map_nil,
    Literal.negate_negate, Option.some.injEq, Except.ok.injEq, List.cons.injEq, and_true]
    at hlearned
  exact ⟨⟨hstate, hlevel⟩, c, d, hc, Option.some.inj hdecision, u, hlearned, hpoint, hfirst rfl⟩

end Session

end ClauseLearning
