import ClauseLearning.Files.System

/-!
# Directory trees

A finite tree of names with the contents of files, further directories, and entries of other kinds.

* `Directory.find?`: the entry of a name.
* `Entry.follow`: what a sequence of names leads to.
-/

namespace ClauseLearning

/-- A directory as a chain of its entries. A file has what reading it gives. -/
inductive Directory where
  | empty
  | file (name : FileName) (content : Except SystemError ByteArray) (rest : Directory)
  | folder (name : FileName) (inner rest : Directory)
  | other (name : FileName) (rest : Directory)

/-- What a name stands for. -/
inductive Entry where
  | file (content : Except SystemError ByteArray)
  | folder (d : Directory)
  | other

namespace Directory

/-- The names of the entries. -/
def names : Directory → List FileName
  | empty => []
  | file name _ rest | folder name _ rest | other name rest => name :: rest.names

/-- The first entry of a name. -/
def find? (d : Directory) (name : FileName) : Option Entry :=
  match d with
  | empty => none
  | file n content rest => if n = name then some (.file content) else rest.find? name
  | folder n inner rest => if n = name then some (.folder inner) else rest.find? name
  | other n rest => if n = name then some .other else rest.find? name

/-- A directory with one entry in front. -/
def cons (name : FileName) (e : Entry) (rest : Directory) : Directory :=
  match e with
  | .file content => file name content rest
  | .folder inner => folder name inner rest
  | .other => other name rest

end Directory

/-- What the names lead to, one directory after the other. -/
def Entry.follow : List FileName → Entry → Option Entry
  | [], e => some e
  | name :: names, .folder d => (d.find? name).bind (follow names)
  | _ :: _, .file _ | _ :: _, .other => none

end ClauseLearning
