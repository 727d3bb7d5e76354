import ClauseLearning.Files.Path

/-!
# What the system answers

The program asks the system about paths. Nothing is assumed of the answers: whoever reasons about a
run states what the system answers in it.

* `FileSystem`: the answers.
* `FileSystem.readText`: the text of a file.
-/

namespace ClauseLearning

/-- A failure that the system reports, in its own words. -/
structure SystemError where
  message : String
deriving DecidableEq

/-- Bytes that are asked for as a text, and are none. -/
def SystemError.notText : SystemError := ⟨"stream did not contain valid UTF-8"⟩

/-- What a path leads to. -/
inductive FileKind where
  | directory
  /-- A regular file. -/
  | regular
  | other
deriving DecidableEq

/-- What the system answers about paths. The answers do not change during a run. -/
structure FileSystem where
  /-- What a path leads to; `none` if there is nothing or the system does not tell. -/
  kind? : Path → Option FileKind
  /-- The names in a directory, in any order. The system may fail before or between them. -/
  entries : Path → Except SystemError (List (Except SystemError FileName))
  /-- The bytes of a file. -/
  content : Path → Except SystemError ByteArray

/-- Why the files of a directory, or the text of a file, are not had. -/
inductive ReadFailure where
  /-- A directory or a file that cannot be read. -/
  | path (path : Path) (cause : SystemError)
  /-- A failure between the names in a directory. -/
  | entry (cause : SystemError)
deriving DecidableEq

/-- The messages of a failure, each explained by the next. -/
def ReadFailure.chain : ReadFailure → List String
  | path p cause => ["Cannot read " ++ p.display, cause.message]
  | entry cause => [cause.message]

/-- The text of the file at a path. -/
def FileSystem.readText (fs : FileSystem) (path : Path) : Except ReadFailure String :=
  match fs.content path with
  | .error cause => .error (.path path cause)
  | .ok bytes =>
    match String.fromUTF8? bytes with
    | some text => .ok text
    | none => .error (.path path .notText)

end ClauseLearning
