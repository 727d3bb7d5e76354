import ClauseLearning.Proofs.Engine.Session
import ClauseLearning.Proofs.Logic.FirstModel
import ClauseLearning.Search.Exhaustive
import Mathlib.Data.Set.Card

/-!
# What exhaustive search finds

Below some values the search finds the first model that has these values, or finds that there is
none. A search that finds none undoes what it did, so the second value of a variable is tried under
the same values as the first.

* `Values.PartOf`, `Values.model`: values as a part of an assignment.
* `values_search`: a search without success leaves the values as they were.
* `search_spec`: what a search finds below given values.
* `exhaustive_decides`: the search for a formula of at most 24 variables.
-/

namespace ClauseLearning

/-- The number of distinct variables of the formula. -/
noncomputable def Formula.varCount (f : Formula) : Nat :=
  {v | ∃ c ∈ f, ∃ l ∈ c, l.var = v}.ncard

theorem Formula.nodup_vars (f : Formula) : f.vars.Nodup :=
  f.sorted_vars.imp fun hlt heq => Nat.ne_of_lt hlt (congrArg Var.id heq)

theorem Formula.length_vars (f : Formula) : f.vars.length = f.varCount := by
  have hset : {v | ∃ c ∈ f, ∃ l ∈ c, l.var = v} = (f.vars.toFinset : Set Var) := by
    ext v
    simp [Formula.mem_vars]
  rw [varCount, hset, Set.ncard_coe_finset, List.toFinset_card_of_nodup f.nodup_vars]

namespace Exhaustive

theorem lookup_cons (v w : Var) (b : Bool) (entries : List (Var × Bool)) :
    ((v, b) :: entries).lookup w = if w = v then some b else entries.lookup w := by
  by_cases hw : w = v
  · simp [hw]
  · rw [List.lookup_cons, beq_eq_false_iff_ne.mpr hw, if_neg hw]

namespace Values

variable {vs : Values} {v w : Var} {b b' : Bool} {a : Assignment} {c : Clause}

/-! ## Values -/

theorem erase_eq_self (h : vs.get? v = none) : vs.erase v = vs := by
  obtain ⟨entries⟩ := vs
  refine congrArg Values.mk (List.filter_eq_self.mpr fun x hx => ?_)
  have hne : v ≠ x.1 := bne_iff_ne.mp (List.lookup_eq_none_iff.mp h x hx)
  exact decide_eq_true hne.symm

theorem insert_of_free (h : vs.get? v = none) : vs.insert v b = ⟨(v, b) :: vs.entries⟩ := by
  rw [insert, erase_eq_self h]

/-- A value that is taken back leaves no trace, -/
theorem erase_insert (h : vs.get? v = none) : (vs.insert v b).erase v = vs := by
  rw [insert_of_free h, erase, List.filter_cons_of_neg (by simp)]
  exact erase_eq_self h

/-- nor does one that is replaced. -/
theorem insert_insert (h : vs.get? v = none) : (vs.insert v b).insert v b' = vs.insert v b' := by
  rw [insert, erase_insert h, insert_of_free h]

theorem get?_insert (h : vs.get? v = none) :
    (vs.insert v b).get? w = if w = v then some b else vs.get? w := by
  rw [insert_of_free h, get?, lookup_cons]
  rfl

theorem falsifies_iff : vs.falsifies c = true ↔ ∀ l ∈ c, vs.get? l.var = some (!l.positive) := by
  simp only [falsifies, Array.all_eq_true', beq_iff_eq, Clause.mem_def]

/-- The assignment gives each variable its value. -/
def PartOf (vs : Values) (a : Assignment) : Prop := ∀ ⦃v b⦄, vs.get? v = some b → a v.id = b

theorem partOf_insert (h : vs.get? v = none) :
    (vs.insert v b).PartOf a ↔ a v.id = b ∧ vs.PartOf a := by
  constructor
  · intro hpart
    refine ⟨hpart (by rw [get?_insert h, if_pos rfl]), fun w b' hw => hpart ?_⟩
    have hne : w ≠ v := by
      rintro rfl
      rw [h] at hw
      cases hw
    rwa [get?_insert h, if_neg hne]
  · rintro ⟨hv, hpart⟩ w b' hw
    rw [get?_insert h] at hw
    split at hw
    · next heq => rw [heq, hv, Option.some.inj hw]
    · exact hpart hw

theorem PartOf.not_holds (hpart : vs.PartOf a) (hc : vs.falsifies c = true) : ¬c.Holds a := by
  rintro ⟨l, hl, hla⟩
  have := hpart (falsifies_iff.mp hc l hl)
  rw [Literal.Holds, this] at hla
  exact absurd hla (Bool.not_ne_self _)

/-- The values as an assignment, in which all other variables are false. -/
def model (vs : Values) : Assignment := fun n => ((Var.ofNat? n).bind vs.get?).getD false

theorem model_id (vs : Values) (v : Var) : vs.model v.id = (vs.get? v).getD false := by
  simp [model, Var.ofNat?, v.id_pos]

/-- A clause whose variables all have values is true, unless it is falsified. -/
theorem holds_model (hall : ∀ l ∈ c, ∃ b, vs.get? l.var = some b)
    (hc : vs.falsifies c ≠ true) : c.Holds vs.model := by
  apply Classical.byContradiction
  intro hfalse
  refine hc (falsifies_iff.mpr fun l hl => ?_)
  obtain ⟨b, hb⟩ := hall l hl
  have hne : b ≠ l.positive := fun heq =>
    hfalse ⟨l, hl, by rw [Literal.Holds, model_id, hb, Option.getD_some, heq]⟩
  rw [hb, Bool.eq_not.mpr hne]

end Values

/-- The value of the variable that was tried last. -/
def Progress.lastTried (p : Progress) (v : Var) : Option Bool := p.tried.toList.reverse.lookup v

@[simp] theorem Progress.values_assign (p : Progress) (v : Var) (b : Bool) :
    (p.assign v b).values = p.values.insert v b := rfl

theorem Progress.lastTried_assign (p : Progress) (v w : Var) (b : Bool) :
    (p.assign v b).lastTried w = if w = v then some b else p.lastTried w := by
  simp only [lastTried, assign, Array.toList_push, List.reverse_append, List.reverse_singleton,
    List.singleton_append, lookup_cons]

/-! ## The search -/

variable {f : Formula} {vars rest : List Var} {vs : Values} {p q : Progress} {v : Var} {b : Bool}
  {a : Assignment}

theorem any_falsifies_iff : f.any vs.falsifies = true ↔ ∃ c ∈ f, vs.falsifies c = true :=
  List.any_eq_true

/-- Values under which a clause is false are no part of a model. -/
theorem not_satisfies_of_falsifies (h : f.any vs.falsifies = true) (hpart : vs.PartOf a) :
    ¬Satisfies a f := by
  obtain ⟨c, hc, hfalse⟩ := any_falsifies_iff.mp h
  exact fun ha => hpart.not_holds hfalse (ha c hc)

/-- Only the given variables are tried. -/
theorem lastTried_search (hv : v ∉ vars) : (search f vars p).2.lastTried v = p.lastTried v := by
  have hassign : ∀ {w rest} (p : Progress) (b), v ∉ w :: rest →
      (p.assign w b).lastTried v = p.lastTried v := fun p b hv => by
    rw [Progress.lastTried_assign, if_neg (List.ne_of_not_mem_cons hv)]
  fun_induction search f vars p with
  | case1 => rfl
  | case2 => rfl
  | case3 w rest p hclauses q hq ih =>
    rw [hq] at ih
    exact (ih (List.not_mem_of_not_mem_cons hv)).trans (hassign p true hv)
  | case4 w rest p hclauses q hq q' hq' ih ih' =>
    rw [hq] at ih
    rw [hq'] at ih'
    have hq := (ih (List.not_mem_of_not_mem_cons hv)).trans (hassign p true hv)
    exact (ih' (List.not_mem_of_not_mem_cons hv)).trans ((hassign q false hv).trans hq)
  | case5 w rest p hclauses q hq q' hq' ih ih' =>
    rw [hq] at ih
    rw [hq'] at ih'
    have hq := (ih (List.not_mem_of_not_mem_cons hv)).trans (hassign p true hv)
    exact (ih' (List.not_mem_of_not_mem_cons hv)).trans ((hassign q false hv).trans hq)

/-- A variable that is not tried again keeps its last value. -/
theorem lastTried_of_search {found : Bool} (hv : v ∉ rest)
    (hq : search f rest (p.assign v b) = (found, q)) : q.lastTried v = some b := by
  have := lastTried_search (f := f) (p := p.assign v b) hv
  rwa [hq, Progress.lastTried_assign, if_pos rfl] at this

/-- None of the variables has a value yet, and none is repeated. -/
structure Untried (vars : List Var) (vs : Values) : Prop where
  nodup : vars.Nodup
  free : ∀ v ∈ vars, vs.get? v = none

namespace Untried

theorem head (h : Untried (v :: rest) vs) : vs.get? v = none := h.free v List.mem_cons_self

theorem not_mem (h : Untried (v :: rest) vs) : v ∉ rest := (List.nodup_cons.mp h.nodup).1

theorem tail (h : Untried (v :: rest) vs) (b : Bool) : Untried rest (vs.insert v b) where
  nodup := (List.nodup_cons.mp h.nodup).2
  free w hw := by
    have hne : w ≠ v := by
      rintro rfl
      exact h.not_mem hw
    rw [Values.get?_insert h.head, if_neg hne]
    exact h.free w (List.mem_cons_of_mem v hw)

end Untried

/-- The second value is tried under the values under which the first one was. -/
theorem Untried.assign_false (h : Untried (v :: rest) p.values)
    (hq : q.values = (p.assign v true).values) :
    (q.assign v false).values = p.values.insert v false := by
  rw [Progress.values_assign, hq, Progress.values_assign, Values.insert_insert h.head]

/-- A search without success leaves the values as they were. -/
theorem values_search (h : Untried vars p.values) (hfail : (search f vars p).1 = false) :
    (search f vars p).2.values = p.values := by
  fun_induction search f vars p with
  | case1 => rfl
  | case2 => rfl
  | case3 => cases hfail
  | case4 => cases hfail
  | case5 v rest p hclauses q hq q' hq' ih ih' =>
    rw [hq] at ih
    rw [hq'] at ih'
    have hfalse := h.assign_false (ih (h.tail true) rfl)
    have hvalues : q'.values = p.values.insert v false :=
      (ih' (hfalse ▸ h.tail false) rfl).trans hfalse
    show q'.values.erase v = p.values
    rw [hvalues, Values.erase_insert h.head]

theorem Untried.assign_of_search (h : Untried (v :: rest) p.values)
    (hq : search f rest (p.assign v true) = (false, q)) :
    (q.assign v false).values = p.values.insert v false := by
  have := values_search (f := f) (p := p.assign v true) (h.tail true) (by rw [hq])
  rw [hq] at this
  exact h.assign_false this

/-- `q` holds the first model of the formula that has the given values. -/
structure Finds (f : Formula) (vars : List Var) (vs : Values) (q : Progress) : Prop where
  get?_of_not_mem : ∀ v ∉ vars, q.values.get? v = vs.get? v
  exists_value : ∀ v ∈ vars, ∃ b, q.values.get? v = some b ∧ q.lastTried v = some b
  satisfies : Satisfies q.values.model f
  first : ∀ ⦃a⦄, vs.PartOf a → Satisfies a f → NoLater vars q.values.model a

/-- The first model with a value of the smallest variable is the first of all, if no model has a
better value. -/
theorem Finds.cons (h : Finds f rest (vs.insert v b) q)
    (hsorted : Ascending.Sorted Var.id (v :: rest)) (hvs : Untried (v :: rest) vs)
    (hlast : q.lastTried v = some b)
    (hbest : ∀ a, vs.PartOf a → Satisfies a f → a v.id = b ∨ b = true) :
    Finds f (v :: rest) vs q := by
  have hv : q.values.get? v = some b := by
    rw [h.get?_of_not_mem v hvs.not_mem, Values.get?_insert hvs.head, if_pos rfl]
  have hmodel : q.values.model v.id = b := by rw [Values.model_id, hv, Option.getD_some]
  refine ⟨fun w hw => ?_, List.forall_mem_cons.mpr ⟨⟨b, hv, hlast⟩, h.exists_value⟩, h.satisfies,
    fun a hpart ha => ?_⟩
  · rw [List.mem_cons, not_or] at hw
    rw [h.get?_of_not_mem w hw.2, Values.get?_insert hvs.head, if_neg hw.1]
  · by_cases hab : a v.id = b
    · exact .cons (hab.trans hmodel.symm)
        (h.first ((Values.partOf_insert hvs.head).mpr ⟨hab, hpart⟩) ha)
    · obtain rfl := (hbest a hpart ha).resolve_left hab
      exact .of_head hsorted hmodel (by simpa using hab)

/-- No model has the given values. -/
def Refuted (f : Formula) (vs : Values) : Prop := ∀ a, vs.PartOf a → ¬Satisfies a f

theorem Refuted.cons (hv : vs.get? v = none) (htrue : Refuted f (vs.insert v true))
    (hfalse : Refuted f (vs.insert v false)) : Refuted f vs := by
  intro a hpart
  cases ha : a v.id with
  | true => exact htrue a ((Values.partOf_insert hv).mpr ⟨ha, hpart⟩)
  | false => exact hfalse a ((Values.partOf_insert hv).mpr ⟨ha, hpart⟩)

/-- Every variable of the formula is one of the given variables or has a value. -/
def Covers (f : Formula) (vars : List Var) (vs : Values) : Prop :=
  ∀ v ∈ f.vars, v ∈ vars ∨ ∃ b, vs.get? v = some b

theorem Covers.tail (h : Covers f (v :: rest) vs) (hv : vs.get? v = none) (b : Bool) :
    Covers f rest (vs.insert v b) := by
  intro w hw
  by_cases heq : w = v
  · exact .inr ⟨b, by rw [Values.get?_insert hv, if_pos heq]⟩
  · rcases h w hw with hmem | ⟨b', hb'⟩
    · exact .inl ((List.mem_cons.mp hmem).resolve_left heq)
    · exact .inr ⟨b', by rw [Values.get?_insert hv, if_neg heq, hb']⟩

/-- Without variables to try, the values decide the formula. -/
theorem Finds.nil (hall : Covers f [] p.values) (h : ¬f.any p.values.falsifies = true) :
    Finds f [] p.values p where
  get?_of_not_mem _ _ := rfl
  exists_value := by simp
  satisfies c hc := by
    refine Values.holds_model (fun l hl => ?_) fun hfalse => h (any_falsifies_iff.mpr ⟨c, hc, hfalse⟩)
    exact (hall l.var (Formula.mem_vars.mpr ⟨c, hc, l, hl, rfl⟩)).resolve_left List.not_mem_nil
  first _ _ _ := .inl (by simp)

/-- What a search finds below given values: the first model, or that there is none. -/
theorem search_spec (hsorted : Ascending.Sorted Var.id vars) (h : Untried vars p.values)
    (hall : Covers f vars p.values) :
    match search f vars p with
    | (true, q) => Finds f vars p.values q
    | (false, _) => Refuted f p.values := by
  fun_induction search f vars p with
  | case1 p =>
    cases hany : f.any p.values.falsifies with
    | true => exact fun a => not_satisfies_of_falsifies hany
    | false => exact Finds.nil hall (by simp [hany])
  | case2 v rest p hany => exact fun a => not_satisfies_of_falsifies hany
  | case3 v rest p hany q hq ih =>
    rw [hq] at ih
    have hfinds := ih hsorted.tail (h.tail true) (hall.tail h.head true)
    exact hfinds.cons hsorted h (lastTried_of_search h.not_mem hq) fun _ _ _ => .inr rfl
  | case4 v rest p hany q hq q' hq' ih ih' =>
    have hsecond := h.assign_of_search hq
    rw [hq] at ih
    rw [hq', hsecond] at ih'
    have htrue := ih hsorted.tail (h.tail true) (hall.tail h.head true)
    have hfinds := ih' hsorted.tail (h.tail false) (hall.tail h.head false)
    refine hfinds.cons hsorted h (lastTried_of_search h.not_mem hq') fun a hpart ha => .inl ?_
    exact Bool.eq_false_iff.mpr fun hv =>
      htrue a ((Values.partOf_insert h.head).mpr ⟨hv, hpart⟩) ha
  | case5 v rest p hany q hq q' hq' ih ih' =>
    have hsecond := h.assign_of_search hq
    rw [hq] at ih
    rw [hq', hsecond] at ih'
    exact .cons h.head (ih hsorted.tail (h.tail true) (hall.tail h.head true))
      (ih' hsorted.tail (h.tail false) (hall.tail h.head false))

theorem untried_nil (f : Formula) : Untried f.vars ⟨[]⟩ where
  nodup := f.nodup_vars
  free _ _ := rfl

/-- The search from the start: the first model, with each value the one tried last, or none. -/
theorem search_nil (f : Formula) :
    match search f f.vars ⟨⟨[]⟩, #[]⟩ with
    | (true, q) => ∃ a, FirstModel f a ∧
        ∀ v ∈ f.vars, q.values.get? v = some (a v.id) ∧ q.lastTried v = some (a v.id)
    | (false, _) => ¬Satisfiable f := by
  have hpart : ∀ a, (⟨[]⟩ : Values).PartOf a := fun a v b hv => by cases hv
  have hspec := search_spec (f := f) (p := ⟨⟨[]⟩, #[]⟩) f.sorted_vars (untried_nil f)
    fun v hv => .inl hv
  split <;> rename_i q hq <;> rw [hq] at hspec
  · refine ⟨q.values.model, ⟨hspec.satisfies, fun hb => hspec.first (hpart _) hb⟩, fun v hv => ?_⟩
    obtain ⟨b, hb, hlast⟩ := hspec.exists_value v hv
    rw [Values.model_id, hb, Option.getD_some]
    exact ⟨rfl, hlast⟩
  · exact fun ⟨a, ha⟩ => hspec a (hpart a) ha

end Exhaustive

/-- The search refuses exactly the formulas of more than 24 variables. For any other formula it says
whether there is a model, and the values it ends with, which are the values of the variables tried
last, make up the first model. A search without success leaves the values as they were, below any
values and for any variables that have no values yet. -/
theorem exhaustive_decides (f : Formula) :
    (∀ x, exhaustive f = .error x ↔ 24 < f.varCount ∧ x = .tooManyVariables f.varCount) ∧
    (f.varCount ≤ 24 → ∃ sat p, exhaustive f = .ok (sat, p) ∧ (sat = true ↔ Satisfiable f) ∧
      (sat = true → ∃ a, FirstModel f a ∧
        ∀ v ∈ f.vars, p.values.get? v = some (a v.id) ∧ p.lastTried v = some (a v.id))) ∧
    ∀ (vars : List Var) (p : Exhaustive.Progress), vars.Nodup →
      (∀ v ∈ vars, p.values.get? v = none) → (Exhaustive.search f vars p).1 = false →
      (Exhaustive.search f vars p).2.values = p.values := by
  refine ⟨fun x => ?_, fun hle => ?_, fun vars p hnodup hfree => Exhaustive.values_search ⟨hnodup, hfree⟩⟩
  · simp only [exhaustive, Exhaustive.maxVariables, Formula.length_vars]
    split
    · next hlt => simp [hlt, eq_comm]
    · next hle => simp [hle]
  · have hok : exhaustive f = .ok (Exhaustive.search f f.vars ⟨⟨[]⟩, #[]⟩) := by
      simp [exhaustive, Exhaustive.maxVariables, Formula.length_vars, Nat.not_lt.mpr hle]
    have hsearch := Exhaustive.search_nil f
    rw [hok]
    split at hsearch <;> rename_i q hq <;> rw [hq]
    · obtain ⟨a, ha, hvalues⟩ := hsearch
      exact ⟨true, q, rfl, by simpa using ⟨a, ha.satisfies⟩, fun _ => ⟨a, ha, hvalues⟩⟩
    · exact ⟨false, q, rfl, by simpa using hsearch, by simp⟩

/-- The search for `notFirst` tries `x1` in vain: with `x1` true, no value of `x2` is left behind.
The second value of `x1` and the first one of `x2` make up the first model. -/
theorem notFirst_searched :
    (∃ p a, exhaustive Session.notFirst = .ok (true, p) ∧ FirstModel Session.notFirst a ∧
      p.lastTried ⟨1, Nat.one_pos⟩ = some (a 1) ∧ p.lastTried ⟨2, Nat.two_pos⟩ = some (a 2) ∧
      a 1 = false ∧ a 2 = true) ∧
    (Exhaustive.search Session.notFirst [⟨2, Nat.two_pos⟩]
      ⟨⟨[(⟨1, Nat.one_pos⟩, true)]⟩, #[]⟩).2.values = ⟨[(⟨1, Nat.one_pos⟩, true)]⟩ := by
  obtain ⟨-, hdecides, hrestores⟩ := exhaustive_decides Session.notFirst
  refine ⟨?_, hrestores [⟨2, Nat.two_pos⟩] ⟨⟨[(⟨1, Nat.one_pos⟩, true)]⟩, #[]⟩ (by decide)
    (by decide) (by decide +kernel)⟩
  have hcount : Session.notFirst.varCount ≤ 24 := by
    rw [← Formula.length_vars]
    decide
  obtain ⟨sat, p, hp, -, hfirst⟩ := hdecides hcount
  have htried : (exhaustive Session.notFirst).toOption.map (fun x =>
      (x.1, x.2.lastTried ⟨1, Nat.one_pos⟩, x.2.lastTried ⟨2, Nat.two_pos⟩)) =
      some (true, some false, some true) := by decide +kernel
  rw [hp] at htried
  simp only [Except.toOption, Option.map_some, Option.some.injEq, Prod.mk.injEq] at htried
  obtain ⟨rfl, h₁, h₂⟩ := htried
  obtain ⟨a, ha, hvalues⟩ := hfirst rfl
  have hlast₁ := (hvalues ⟨1, Nat.one_pos⟩ (by decide)).2
  have hlast₂ := (hvalues ⟨2, Nat.two_pos⟩ (by decide)).2
  exact ⟨p, a, hp, ha, hlast₁, hlast₂, Option.some.inj (hlast₁.symm.trans h₁),
    Option.some.inj (hlast₂.symm.trans h₂)⟩

end ClauseLearning
