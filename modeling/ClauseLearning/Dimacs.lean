import ClauseLearning.Logic.Expr
import ClauseLearning.Text

/-!
# DIMACS formulas

A file of clauses, each a sequence of numbers that ends with zero, where `-3` stands for `¬x3`.
Lines with `c` are comments, lines with `p` are headers, and a line with `%` ends the file. Clauses
may run over line ends.

* `Dimacs.parse`: the formula of a text.
-/

namespace ClauseLearning

namespace Dimacs

/-- What is wrong in a line. -/
inductive Problem where
  | malformedHeader (rest : String)
  | unsupportedFormat (format : String)
  | numVariables (cause : NumberError)
  | numClauses (cause : NumberError)
  | invalidLiteral (token : String) (cause : NumberError)
  | emptyClause
deriving DecidableEq

/-- Why a text is no formula. -/
inductive Error where
  | atLine (line : Nat) (problem : Problem)
  /-- The last clause does not end with zero. -/
  | unterminated
  | noClauses
deriving DecidableEq

/-- The messages of an error, each explained by the next. -/
def Error.chain : Error → List String
  | .unterminated => ["Last clause is not terminated by 0"]
  | .noClauses => ["Formula without clauses"]
  | .atLine n problem =>
    let line := "Line " ++ toString n
    match problem with
    | .malformedHeader rest => [line, "Malformed header `p" ++ rest ++ "`"]
    | .unsupportedFormat format => [line, "Unsupported format `" ++ format ++ "`"]
    | .numVariables cause => [line, "Number of variables", cause.message]
    | .numClauses cause => [line, "Number of clauses", cause.message]
    | .invalidLiteral token cause =>
      [line ++ ": invalid literal `" ++ token ++ "`", cause.message]
    | .emptyClause => [line ++ ": empty clause"]

/-- A formula and what the last header says about it. -/
structure Document where
  formula : Expr
  numClauses : Nat
  /-- The number of clauses that the last header declares. -/
  declared : Option Nat

/-- A header that does not fit the clauses, as a line of a log. -/
def Document.warning (d : Document) : Option String :=
  match d.declared with
  | none => none
  | some n =>
    if n = d.numClauses then none
    else some ("WARN Header declares " ++ toString n ++ " clauses, but " ++ toString d.numClauses ++
      " are found")

/-- What has been read so far. -/
structure Reading where
  /-- The clauses that are complete. -/
  clauses : Array Expr
  /-- The literals of the clause that is not. -/
  current : Array Literal
  declared : Option Nat

/-- Reads the part of a header behind the `p`: the format `cnf` and the numbers of variables and of
clauses, of which the latter is returned. -/
def readHeader (rest : List Char) : Except Problem Nat :=
  match Text.fields rest with
  | [format, vars, clauses] =>
    if format ≠ "cnf".toList then .error (.unsupportedFormat (.ofList format))
    else do
      let _ ← (NumberBounds.unsigned64.read vars).mapError .numVariables
      let n ← (NumberBounds.unsigned64.read clauses).mapError .numClauses
      return n.toNat
  | _ => .error (.malformedHeader (.ofList rest))

/-- Reads a number: zero ends the clause, any other is its next literal. -/
def readToken (s : Reading) (token : List Char) : Except Problem Reading := do
  let n ← (NumberBounds.signed32.read token).mapError (.invalidLiteral (.ofList token))
  match Literal.ofInt n with
  | .ok l => return { s with current := s.current.push l }
  | .error .zero =>
    match Expr.disjunction (s.current.toList.map Expr.ofLiteral) with
    | some clause => return { s with clauses := s.clauses.push clause, current := #[] }
    | none => throw .emptyClause

/-- Reads the lines from the given number on, up to an end marker. -/
def readLines : Nat → List (List Char) → Reading → Except Error Reading
  | _, [], s => .ok s
  | n, line :: lines, s =>
    match Text.trim line with
    | [] | 'c' :: _ => readLines (n + 1) lines s
    | '%' :: _ => .ok s
    | 'p' :: rest => do
      let declared ← (readHeader rest).mapError (.atLine n)
      readLines (n + 1) lines { s with declared := some declared }
    | line => do
      let s ← ((Text.fields line).foldlM readToken s).mapError (.atLine n)
      readLines (n + 1) lines s

/-- Reads a formula. -/
def parse (text : String) : Except Error Document := do
  let s ← readLines 1 (text.toList.splitOn '\n') ⟨#[], #[], none⟩
  if !s.current.isEmpty then throw .unterminated
  match Expr.conjunction s.clauses.toList with
  | some formula => return { formula, numClauses := s.clauses.size, declared := s.declared }
  | none => throw .noClauses

end Dimacs

end ClauseLearning
