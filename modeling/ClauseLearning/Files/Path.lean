import ClauseLearning.Text

/-!
# Paths

A path is a sequence of bytes: names between slashes. It need not be a text.

* `Path.join`, `Path.below`: the path of an entry below a directory.
* `Path.text?`, `Path.display`: a path as a text.
* `Path.compare`: the order of paths, component by component.
-/

namespace ClauseLearning

/-- The name of an entry of a directory. -/
abbrev FileName := List UInt8

/-- A path, followed from the root directory if it starts with a slash. -/
structure Path where
  bytes : List UInt8
deriving DecidableEq

namespace Path

/-- The byte between two names. -/
def slash : UInt8 := 0x2F

/-- The path that a text denotes. -/
def ofText (s : String) : Path := ⟨s.toUTF8.data.toList⟩

/-- The path as a text, if it is one. -/
def text? (p : Path) : Option String := String.fromUTF8? ⟨p.bytes.toArray⟩

/-- The path as it is shown. -/
def display (p : Path) : String := p.text?.getD (Text.ofBytes p.bytes)

/-- The path of an entry of a directory. A name that starts with a slash is a path from the root. -/
def join (dir : Path) (name : FileName) : Path :=
  if name.head? = some slash then ⟨name⟩
  else if dir.bytes.getLast?.all (· == slash) then ⟨dir.bytes ++ name⟩
  else ⟨dir.bytes ++ slash :: name⟩

/-- The path that names lead to, one directory after the other. -/
def below (dir : Path) (names : List FileName) : Path := names.foldl join dir

/-! ## The order of paths -/

/-- Names are ordered by their bytes, from the left. -/
def compareNames (a b : FileName) : Ordering := List.compareLex Ord.compare a b

/-- What a path is made of, as far as the order of paths is concerned. -/
inductive Component where
  /-- A slash at the beginning. -/
  | root
  /-- A `.` at the beginning. -/
  | here
  | parent
  | name (bytes : FileName)
deriving DecidableEq

/-- The parts of a path between its slashes. -/
def parts (p : Path) : List FileName := p.bytes.splitOn slash

/-- The part that stands for the directory itself. -/
def herePart : FileName := [0x2E]

/-- The part that stands for the directory above. -/
def parentPart : FileName := [0x2E, 0x2E]

/-- The component of a part, unless it makes no difference. -/
def Component.ofPart? (part : FileName) : Option Component :=
  if part = [] || part = herePart then none
  else if part = parentPart then some .parent
  else some (.name part)

/-- The components of a path. Repeated slashes, a slash at the end and a `.` that is not at the
beginning do not show. -/
def components (p : Path) : List Component :=
  (if p.bytes.head? = some slash then [.root]
    else if p.parts.head? = some herePart then [.here] else []) ++
    p.parts.filterMap Component.ofPart?

/-- The place of the kind of a component. Names come last. -/
def Component.rank : Component → Nat
  | root => 0
  | here => 1
  | parent => 2
  | name _ => 3

/-- The bytes of a name; nothing for other components. -/
def Component.bytes : Component → FileName
  | name bytes => bytes
  | _ => []

/-- Components are ordered by their kind, names by their bytes. -/
def Component.compare : Component → Component → Ordering :=
  compareLex (compareOn rank) fun a b => compareNames a.bytes b.bytes

/-- Compares paths by their components, from the left. -/
def compare (a b : Path) : Ordering :=
  List.compareLex Component.compare a.components b.components

end Path

end ClauseLearning
