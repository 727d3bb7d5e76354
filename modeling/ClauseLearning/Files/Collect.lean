import ClauseLearning.Files.System

/-!
# The files below a directory

Every regular file at any depth below a directory, in the order of their paths. A missing directory
has no files.

* `Traversal.finish`: directories are read one after the other.
* `FileSystem.collectFiles`: the files below a directory.
-/

namespace ClauseLearning

/-- What was found below a path. -/
inductive Found where
  | missing (dir : Path)
  | files (paths : List Path)
deriving DecidableEq

namespace Found

/-- The paths of the files. -/
def paths : Found → List Path
  | missing _ => []
  | files paths => paths

/-- A missing directory, as a line of a log. -/
def warning : Found → Option String
  | missing dir => some ("WARN " ++ dir.display ++ " does not exist")
  | files _ => none

end Found

/-- The files found so far, and the directories still to be read. -/
structure Traversal where
  found : Array Path
  pending : List Path

namespace Traversal

/-- Looks at the entries of a directory in the order in which they are listed. A directory becomes the
next one to be read. An entry of another kind is passed over, and so is one that the system does not
tell the kind of. -/
def visit (fs : FileSystem) (dir : Path) :
    List (Except SystemError FileName) → Traversal → Except ReadFailure Traversal
  | [], t => .ok t
  | .error cause :: _, _ => .error (.entry cause)
  | .ok name :: rest, t =>
    let path := dir.join name
    match fs.kind? path with
    | some .directory => visit fs dir rest { t with pending := path :: t.pending }
    | some .regular => visit fs dir rest { t with found := t.found.push path }
    | some .other | none => visit fs dir rest t

/-- Reads one directory. -/
def read (fs : FileSystem) (dir : Path) (t : Traversal) : Except ReadFailure Traversal :=
  match fs.entries dir with
  | .error cause => .error (.path dir cause)
  | .ok entries => visit fs dir entries t

/-- Reads the next of the pending directories; gives the files if there is none. -/
def readNext (fs : FileSystem) (t : Traversal) : Except ReadFailure (Traversal ⊕ List Path) :=
  match t.pending with
  | [] => .ok (.inr t.found.toList)
  | dir :: pending => (read fs dir { t with pending }).map .inl

/-- Reads the pending directories, one after the other. There is no end to it if there is always a
further directory. -/
def finish (fs : FileSystem) (t : Traversal) : Except ReadFailure (List Path) :=
  repeatM (readNext fs) t

theorem finish_nil (fs : FileSystem) (found : Array Path) :
    finish fs ⟨found, []⟩ = .ok found.toList := by
  rw [finish, repeatM_eq_of_monadTail]
  rfl

theorem finish_cons (fs : FileSystem) (found : Array Path) (dir : Path) (pending : List Path) :
    finish fs ⟨found, dir :: pending⟩ = (read fs dir ⟨found, pending⟩).bind (finish fs) := by
  have hnext : readNext fs ⟨found, dir :: pending⟩ = (read fs dir ⟨found, pending⟩).map .inl := rfl
  rw [finish, repeatM_eq_of_monadTail, repeatM.body, hnext]
  cases read fs dir ⟨found, pending⟩ <;> rfl

end Traversal

namespace FileSystem

/-- Every regular file below a directory, in the order of paths. -/
def collectFiles (fs : FileSystem) (dir : Path) : Except ReadFailure Found :=
  if (fs.kind? dir).isNone then .ok (.missing dir)
  else do
    let found ← Traversal.finish fs ⟨#[], [dir]⟩
    return .files (found.mergeSort fun a b => (Path.compare a b).isLE)

variable {fs : FileSystem} {dir : Path}

theorem collectFiles_of_none (h : fs.kind? dir = none) : fs.collectFiles dir = .ok (.missing dir) := by
  simp [collectFiles, h]

/-- What is found below a path that leads somewhere is sorted at the end. -/
theorem collectFiles_of_some {kind : FileKind} (h : fs.kind? dir = some kind) :
    fs.collectFiles dir = (Traversal.finish fs ⟨#[], [dir]⟩).map fun found =>
      .files (found.mergeSort fun a b => (Path.compare a b).isLE) := by
  rw [collectFiles, h]
  cases Traversal.finish fs ⟨#[], [dir]⟩ <;> rfl

end FileSystem

end ClauseLearning
