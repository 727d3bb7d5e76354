import ClauseLearning.Logic.Semantics

/-!
# Well-known formulas

* `pigeonhole`: one pigeon more than there are holes.
* `implicationChain`: each variable implies the next.
-/

namespace ClauseLearning

namespace Pigeonhole

/-- The variable that says that a pigeon sits in a hole, of `n` holes. -/
def sits (n pigeon hole : Nat) : Var := ⟨pigeon * n + hole + 1, Nat.succ_pos _⟩

/-- The pigeon has a hole. -/
def somewhere (n pigeon : Nat) : Clause :=
  .ofList ((List.range n).map fun hole => ⟨sits n pigeon hole, true⟩)

/-- The two pigeons do not share the hole. -/
def apart (n p q hole : Nat) : Clause := .ofList [⟨sits n p hole, false⟩, ⟨sits n q hole, false⟩]

/-- Every pigeon `0, …, n` has a hole. -/
def placed (n : Nat) : Formula := (List.range (n + 1)).map (somewhere n)

/-- No two pigeons share a hole, hole by hole. -/
def separated (n : Nat) : Formula :=
  (List.range n).flatMap fun hole =>
    (List.range (n + 1)).flatMap fun p =>
      (List.range' (p + 1) (n - p)).map fun q => apart n p q hole

end Pigeonhole

/-- `n + 1` pigeons in `n` holes; no clauses for a negative `n`. Numbers have no bound here. They agree
with those of signed 32-bit arithmetic as long as `n * (n + 1)` is below `2 ^ 31`, where that arithmetic
overflows. -/
def pigeonhole (n : Int) : Formula :=
  match n with
  | .ofNat n => Pigeonhole.placed n ++ Pigeonhole.separated n
  | .negSucc _ => []

/-- `x1` implies `x2`, and so on up to `xn`; no clauses for an `n` below two. -/
def implicationChain (n : Int) : Formula :=
  (List.range (n.toNat - 1)).map fun i =>
    .ofList [⟨⟨i + 1, Nat.succ_pos _⟩, false⟩, ⟨⟨i + 2, Nat.succ_pos _⟩, true⟩]

end ClauseLearning
