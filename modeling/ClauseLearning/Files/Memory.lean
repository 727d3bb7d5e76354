import ClauseLearning.Files.Directory

/-!
# A system in memory

A directory tree that paths are followed in. The greatest sizes of names and paths are those of the
system that it stands for, and so are the words for what goes wrong.

* `MemorySystem.resolve`: what a path leads to.
* `MemorySystem.answers`: what the system answers.
-/

namespace ClauseLearning

/-- Why a path leads to nothing, or to nothing that can be read. -/
inductive LookupError where
  | notFound
  | notFile
  | notDirectory
  /-- The path or one of its names is too long. -/
  | tooLong
  /-- The path has a byte that ends a path. -/
  | endsWithin
deriving DecidableEq

/-- A tree, the names that lead from its root to the working directory, and the limits of the
system. -/
structure MemorySystem where
  root : Directory
  workingDirectory : List FileName
  /-- The greatest size of a name, in bytes. -/
  maxNameSize : Nat
  /-- The greatest size of a path, in bytes. -/
  maxPathSize : Nat
  words : LookupError → SystemError

/-- Follows the parts of a path from an entry whose parents are given, the nearest first. The root is
its own parent. -/
def Directory.walk (maxNameSize : Nat) :
    List FileName → List Directory → Entry → Except LookupError Entry
  | [], _, e => .ok e
  | part :: rest, parents, .folder d =>
    if part = [] || part = Path.herePart then walk maxNameSize rest parents (.folder d)
    else if part = Path.parentPart then
      match parents with
      | [] => walk maxNameSize rest [] (.folder d)
      | parent :: parents => walk maxNameSize rest parents (.folder parent)
    else if maxNameSize < part.length then .error .tooLong
    else match d.find? part with
      | some e => walk maxNameSize rest (d :: parents) e
      | none => .error .notFound
  | _ :: _, _, .file _ | _ :: _, _, .other => .error .notDirectory

namespace MemorySystem

/-- The parts of a path from the root on. -/
def partsFromRoot (m : MemorySystem) (path : Path) : List FileName :=
  (if path.bytes.head? = some Path.slash then [] else m.workingDirectory) ++ path.parts

/-- What the path leads to. -/
def resolve (m : MemorySystem) (path : Path) : Except LookupError Entry :=
  if path.bytes.contains 0 then .error .endsWithin
  else if path.bytes = [] then .error .notFound
  else if m.maxPathSize < path.bytes.length then .error .tooLong
  else Directory.walk m.maxNameSize (m.partsFromRoot path) [] (.folder m.root)

/-- The kind of an entry. -/
def kindOf : Entry → FileKind
  | .file _ => .regular
  | .folder _ => .directory
  | .other => .other

/-- What the system answers about paths. -/
def answers (m : MemorySystem) : FileSystem where
  kind? path := (m.resolve path).toOption.map kindOf
  entries path :=
    match m.resolve path with
    | .ok (.folder d) => .ok (d.names.map .ok)
    | .ok _ => .error (m.words .notDirectory)
    | .error e => .error (m.words e)
  content path :=
    match m.resolve path with
    | .ok (.file content) => content
    | .ok _ => .error (m.words .notFile)
    | .error e => .error (m.words e)

end MemorySystem

end ClauseLearning
