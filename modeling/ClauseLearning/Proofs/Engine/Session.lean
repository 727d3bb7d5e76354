import ClauseLearning.Engine.Basic
import Mathlib.Logic.Function.Iterate
import Mathlib.Logic.Relation

/-!
# Sessions

A session is the life of one engine: it may be run any number of times. Between two runs it is idle;
a run goes from transition to transition up to a final state.

* `Session.Next`: one event of a session. `Session.Reaches`: any number of events.
* `Session.Reached`: what can happen to an engine made for a formula.
* `Session.reaches_solve`: a call of `Engine.solve` is a sequence of events, from idle to idle.
* `Session.next`: the events one after the other, as a function.
-/

namespace ClauseLearning

variable {σ : Type}

/-- What the engine keeps of a run that ended in this state. -/
def Engine.finish (e : Engine σ) : State → Engine σ
  | .satisfied => e.conclude true
  | .unsatisfied => e.conclude false
  | _ => e

/-- An engine, and the state of its run; `none` between two runs. -/
structure Session (σ : Type) where
  engine : Engine σ
  state : Option State

namespace Session

/-- One event: a run starts, makes one transition, or ends. -/
inductive Next : Session σ → Session σ → Prop
  | start {e e' : Engine σ} (h : e.restart = .ok e') : Next ⟨e, none⟩ ⟨e', some .propagating⟩
  | step {e e' : Engine σ} {s s' : State} (hs : s.isFinal = false) (h : e.step s = (e', s')) :
      Next ⟨e, some s⟩ ⟨e', some s'⟩
  | finish {e : Engine σ} {s : State} (hs : s.isFinal = true) : Next ⟨e, some s⟩ ⟨e.finish s, none⟩

/-- Any number of events. -/
def Reaches (x y : Session σ) : Prop := Relation.ReflTransGen Next x y

/-- The session can come about from a new engine for the formula. -/
def Reached (f : Formula) (config : Config) (policy : Policy σ) (memory : σ) (x : Session σ) :
    Prop :=
  Reaches ⟨Engine.withPolicy f config policy memory, none⟩ x

variable {f : Formula} {config : Config} {policy : Policy σ} {memory : σ} {e e' : Engine σ}
  {s s' : State} {x y : Session σ}

theorem Reaches.trans {z : Session σ} (h : Reaches x y) (h' : Reaches y z) : Reaches x z :=
  Relation.ReflTransGen.trans h h'

/-- An invariant of sessions: it holds of new engines and is kept by every event. -/
theorem Reached.induct {P : Session σ → Prop} (hx : Reached f config policy memory x)
    (hinit : P ⟨.withPolicy f config policy memory, none⟩)
    (hnext : ∀ {y z}, P y → Next y z → P z) : P x := by
  induction hx with
  | refl => exact hinit
  | tail _ h ih => exact hnext ih h

/-! ## Runs as sequences of events -/

theorem run_of_isFinal (hs : s.isFinal = true) (steps : Nat) : e.run steps s = (e, s) := by
  cases steps <;> simp [Engine.run, hs]

theorem run_succ (hs : s.isFinal = false) (steps : Nat) :
    e.run (steps + 1) s = (e.step s).1.run steps (e.step s).2 := by
  simp [Engine.run, hs]

/-- What transitions keep, with the number of steps that are left, holds at the end of a run that
does not give up. -/
theorem run_induct_steps {P : Nat → Engine σ → State → Prop} {steps : Nat}
    (h : e.run steps s = (e', s')) (hs' : s' ≠ .unfinished) (hP : P steps e s)
    (hstep : ∀ {n e s}, s.isFinal = false → P (n + 1) e s → P n (e.step s).1 (e.step s).2) :
    s'.isFinal = true ∧ ∃ n, P n e' s' := by
  induction steps generalizing e s with
  | zero =>
    cases hs : s.isFinal with
    | true =>
      rw [run_of_isFinal hs] at h
      cases h
      exact ⟨hs, 0, hP⟩
    | false =>
      simp only [Engine.run, hs] at h
      cases h
      exact absurd rfl hs'
  | succ steps ih =>
    cases hs : s.isFinal with
    | true =>
      rw [run_of_isFinal hs] at h
      cases h
      exact ⟨hs, steps + 1, hP⟩
    | false =>
      rw [run_succ hs] at h
      exact ih h (hstep hs hP)

/-- What transitions keep holds at the end of a run that does not give up. -/
theorem run_induct {P : Engine σ → State → Prop} {steps : Nat} (h : e.run steps s = (e', s'))
    (hs' : s' ≠ .unfinished) (hP : P e s)
    (hstep : ∀ {e s}, s.isFinal = false → P e s → P (e.step s).1 (e.step s).2) :
    P e' s' ∧ s'.isFinal = true := by
  obtain ⟨hfinal, -, hP'⟩ := run_induct_steps (P := fun _ => P) h hs' hP hstep
  exact ⟨hP', hfinal⟩

/-- A run that does not give up reaches its final state. -/
theorem reaches_run {steps : Nat} (h : e.run steps s = (e', s')) (hs' : s' ≠ .unfinished) :
    Reaches ⟨e, some s⟩ ⟨e', some s'⟩ ∧ s'.isFinal = true :=
  run_induct (P := fun e' s' => Reaches ⟨e, some s⟩ ⟨e', some s'⟩) h hs' .refl fun hs hreach =>
    hreach.tail (.step hs rfl)

/-- The answer that a final state stands for. -/
def verdict : State → Verdict
  | .satisfied => .sat
  | .unsatisfied => .unsat
  | .faulted f => .faulted f
  | _ => .unfinished

/-- Solving is running from a restarted engine. -/
theorem solve_eq (hr : e.restart = .ok e') :
    e.solve = (verdict (e'.run e'.stepBound .propagating).2,
      (e'.run e'.stepBound .propagating).1.finish (e'.run e'.stepBound .propagating).2) := by
  simp only [Engine.solve, hr]
  split <;> rename_i h <;> simp only [h, verdict, Engine.finish]

/-- A call that does not give up leads from idle to idle. -/
theorem reaches_solve (h : e.solve.1 ≠ .unfinished) : Reaches ⟨e, none⟩ ⟨e.solve.2, none⟩ := by
  cases hr : e.restart with
  | error f =>
    simp only [Engine.solve, hr]
    exact .refl
  | ok e' =>
    rw [solve_eq hr] at h ⊢
    have hs : (e'.run e'.stepBound .propagating).2 ≠ .unfinished := by
      intro hs
      rw [hs] at h
      exact h rfl
    obtain ⟨hreach, hfinal⟩ := reaches_run rfl hs
    exact .head (.start hr) (.tail hreach (.finish hfinal))

/-! ## Following a session -/

/-- The session after its next event. An engine that cannot start a run stays idle. -/
def next : Session σ → Session σ
  | ⟨e, none⟩ =>
    match e.restart with
    | .ok e' => ⟨e', some .propagating⟩
    | .error _ => ⟨e, none⟩
  | ⟨e, some s⟩ =>
    if s.isFinal then ⟨e.finish s, none⟩ else ⟨(e.step s).1, some (e.step s).2⟩

theorem reaches_next (x : Session σ) : Reaches x x.next := by
  obtain ⟨e, _ | s⟩ := x
  · simp only [next]
    split
    · next e' hr => exact .single (.start hr)
    · exact .refl
  · simp only [next]
    split
    · next hs => exact .single (.finish hs)
    · next hs => exact .single (.step (Bool.eq_false_iff.mpr hs) rfl)

theorem reaches_iterate_next (n : Nat) (x : Session σ) : Reaches x (next^[n] x) := by
  induction n with
  | zero => exact .refl
  | succ n ih =>
    rw [Function.iterate_succ_apply']
    exact ih.trans (reaches_next _)

/-! ## A small formula -/

/-- Making `x1` true contradicts this formula, so the first decision teaches that `x1` is false. -/
def notFirst : Formula :=
  [.ofList [⟨⟨1, Nat.one_pos⟩, false⟩, ⟨⟨2, Nat.two_pos⟩, true⟩],
    .ofList [⟨⟨1, Nat.one_pos⟩, false⟩, ⟨⟨2, Nat.two_pos⟩, false⟩]]

/-- The session of a new engine for `notFirst` after `n` events. -/
def notFirstAfter (n : Nat) : Session Bool := next^[n] ⟨.ofFormula notFirst {}, none⟩

theorem reached_notFirstAfter {n : Nat} {s : State} (hs : (notFirstAfter n).state = some s) :
    Reached notFirst {} (Phase.policy .positive) false ⟨(notFirstAfter n).engine, some s⟩ := by
  rw [← hs]
  exact reaches_iterate_next n _

end Session

end ClauseLearning
