import ClauseLearning.Files.Collect
import ClauseLearning.Proofs.Files.Tree

/-!
# Reading one directory after the other

A traversal of directories that the system shows comes to an end, and it neither loses nor repeats a
file: what is found, together with what lies below the directories that are still to be read, stays
the same.

* `FileSystem.Shows`: the system answers for a directory, and for all that is below it, as it is.
* `Directory.filesFrom`: the paths of the files below a directory.
* `Traversal.exists_visit`: one directory is read.
* `Traversal.exists_finish`: all directories are read.
-/

namespace ClauseLearning

namespace FileSystem

/-- The system tells the kind of every entry below a directory, the names in every further directory,
and what reading a file gives. -/
def ShowsBelow (fs : FileSystem) : Path → Directory → Prop
  | _, .empty => True
  | dir, .file name content rest =>
    fs.kind? (dir.join name) = some .regular ∧ fs.content (dir.join name) = content ∧
      fs.ShowsBelow dir rest
  | dir, .folder name inner rest =>
    fs.kind? (dir.join name) = some .directory ∧
      fs.entries (dir.join name) = .ok (inner.names.map .ok) ∧
      fs.ShowsBelow (dir.join name) inner ∧ fs.ShowsBelow dir rest
  | dir, .other name rest =>
    fs.kind? (dir.join name) = some .other ∧ fs.ShowsBelow dir rest

/-- The calls of the system succeed for a directory at a path and for all that is below it: they tell
what is there. -/
structure Shows (fs : FileSystem) (dir : Path) (d : Directory) : Prop where
  kind_eq : fs.kind? dir = some .directory
  entries_eq : fs.entries dir = .ok (d.names.map .ok)
  below : fs.ShowsBelow dir d

variable {fs : FileSystem} {dir : Path} {d : Directory} {names : List FileName}
  {content : Except SystemError ByteArray}

/-- Each entry is shown by itself. -/
theorem showsBelow_cons {name : FileName} {e : Entry} : fs.ShowsBelow dir (.cons name e d) ↔
    fs.ShowsBelow dir (.cons name e .empty) ∧ fs.ShowsBelow dir d := by
  cases e <;> simp [Directory.cons, ShowsBelow, and_assoc]

theorem ShowsBelow.of_find? {name : FileName} {e : Entry} (h : fs.ShowsBelow dir d)
    (hfind : d.find? name = some e) : fs.ShowsBelow dir (.cons name e .empty) := by
  induction d using Directory.induct_cons with
  | empty => cases hfind
  | cons n e' rest ih =>
    obtain ⟨hfirst, hrest⟩ := showsBelow_cons.mp h
    rw [Directory.find?_cons] at hfind
    split at hfind
    · next heq =>
      cases hfind
      exact heq ▸ hfirst
    · exact ih hrest hfind

/-- The path of a file below a directory that is shown leads to the file. -/
theorem ShowsBelow.of_hasFile (h : fs.ShowsBelow dir d) (hfile : d.HasFile names content) :
    fs.kind? (dir.below names) = some .regular ∧ fs.content (dir.below names) = content := by
  induction names generalizing dir d with
  | nil => exact absurd hfile Directory.not_hasFile_nil
  | cons name names ih =>
    rcases Directory.hasFile_cons.mp hfile with ⟨hfind, rfl⟩ | ⟨inner, hfind, hfile⟩
    · obtain ⟨hkind, hcontent, -⟩ := h.of_find? hfind
      exact ⟨hkind, hcontent⟩
    · obtain ⟨-, -, hinner, -⟩ := h.of_find? hfind
      exact ih hinner hfile

end FileSystem

/-! ## What is still to be read -/

namespace Directory

/-- The paths of the files below a directory. -/
def filesFrom (dir : Path) (d : Directory) : List Path := d.filePaths.map dir.below

/-- The number of directories of the tree, the one at its root included. -/
def folders : Directory → Nat
  | empty => 1
  | file _ _ rest | other _ rest => rest.folders
  | folder _ inner rest => inner.folders + rest.folders

variable {dir : Path} {name : FileName} {content : Except SystemError ByteArray}
  {inner rest : Directory}

theorem filesFrom_file :
    (file name content rest).filesFrom dir = dir.join name :: rest.filesFrom dir := rfl

theorem filesFrom_folder : (folder name inner rest).filesFrom dir =
    inner.filesFrom (dir.join name) ++ rest.filesFrom dir := by
  simp only [filesFrom, filePaths, List.map_append, List.map_map]
  rfl

end Directory

namespace Traversal

variable {fs : FileSystem} {dir : Path} {d : Directory} {t : Traversal}
  {opened : List (Path × Directory)}

/-- The directories that are still to be read, each as the system shows it. -/
structure Opens (fs : FileSystem) (t : Traversal) (opened : List (Path × Directory)) : Prop where
  pending_eq : t.pending = opened.map Prod.fst
  shows_of_mem : ∀ x ∈ opened, fs.Shows x.1 x.2

/-- The files that are found, and those below the directories that are still to be read. -/
def files (t : Traversal) (opened : List (Path × Directory)) : List Path :=
  t.found.toList ++ opened.flatMap fun x => x.2.filesFrom x.1

/-- How many directories are still to be read, or will be. -/
def ahead : List (Path × Directory) → Nat
  | [] => 0
  | (_, d) :: opened => d.folders + ahead opened

/-- Reading a directory puts its entries in the place of the directory. -/
theorem exists_visit (hd : fs.ShowsBelow dir d) (ht : t.Opens fs opened) : ∃ t' opened',
    t.visit fs dir (d.names.map .ok) = .ok t' ∧ t'.Opens fs opened' ∧
      (t'.files opened').Perm (d.filesFrom dir ++ t.files opened) ∧
      ahead opened' < d.folders + ahead opened := by
  induction d generalizing t opened with
  | empty =>
    refine ⟨t, opened, rfl, ht, .refl _, ?_⟩
    rw [Directory.folders]
    omega
  | file name content rest ih =>
    obtain ⟨hkind, -, hrest⟩ := hd
    obtain ⟨t', opened', hvisit, hopens, hfiles, hahead⟩ :=
      ih (t := { t with found := t.found.push (dir.join name) }) hrest ⟨ht.1, ht.2⟩
    refine ⟨t', opened', ?_, hopens, hfiles.trans ?_, hahead⟩
    · simpa only [Directory.names, List.map_cons, visit, hkind] using hvisit
    · rw [Directory.filesFrom_file]
      simp only [files, Array.toList_push]
      grind
  | folder name inner rest _ ih =>
    obtain ⟨hkind, hentries, hinner, hrest⟩ := hd
    have hopens : ({ t with pending := dir.join name :: t.pending } : Traversal).Opens fs
        ((dir.join name, inner) :: opened) :=
      ⟨by simp [ht.pending_eq],
        List.forall_mem_cons.mpr ⟨⟨hkind, hentries, hinner⟩, ht.shows_of_mem⟩⟩
    obtain ⟨t', opened', hvisit, hopens', hfiles, hahead⟩ := ih hrest hopens
    refine ⟨t', opened', ?_, hopens', hfiles.trans ?_, ?_⟩
    · simpa only [Directory.names, List.map_cons, visit, hkind] using hvisit
    · rw [Directory.filesFrom_folder]
      simp only [files, List.flatMap_cons]
      grind
    · simp only [ahead, Directory.folders] at hahead ⊢
      omega
  | other name rest ih =>
    obtain ⟨hkind, hrest⟩ := hd
    obtain ⟨t', opened', hvisit, hopens, hfiles, hahead⟩ := ih hrest ht
    refine ⟨t', opened', ?_, hopens, hfiles, hahead⟩
    simpa only [Directory.names, List.map_cons, visit, hkind] using hvisit

/-- The traversal ends, and it finds each file once. -/
theorem exists_finish (ht : t.Opens fs opened) :
    ∃ found, t.finish fs = .ok found ∧ found.Perm (t.files opened) := by
  -- The induction is on the number of directories ahead: each one that is read makes it less.
  induction hn : ahead opened using Nat.strongRecOn generalizing t opened with
  | ind n ih =>
    obtain ⟨found, pending⟩ := t
    obtain ⟨rfl, hshown⟩ := ht
    cases opened with
    | nil => exact ⟨found.toList, finish_nil fs found, by simp [files]⟩
    | cons x opened =>
      obtain ⟨dir, d⟩ := x
      obtain ⟨hshows, hopened⟩ := List.forall_mem_cons.mp hshown
      obtain ⟨t', opened', hvisit, hopens, hfiles, hahead⟩ := exists_visit hshows.below
        (t := ⟨found, opened.map Prod.fst⟩) ⟨rfl, hopened⟩
      have hread : read fs dir ⟨found, opened.map Prod.fst⟩ = .ok t' := by
        rw [read, hshows.entries_eq]
        exact hvisit
      obtain ⟨found', hfinish, hfound⟩ := ih _ (hn ▸ hahead) hopens rfl
      refine ⟨found', ?_, hfound.trans (hfiles.trans ?_)⟩
      · rw [List.map_cons, finish_cons, hread]
        exact hfinish
      · simp only [files, List.flatMap_cons]
        grind

end Traversal

end ClauseLearning
