import ClauseLearning.Files.Memory
import ClauseLearning.Proofs.Files.Paths
import ClauseLearning.Proofs.Files.Traversal
import Mathlib.Data.List.Pairwise

/-!
# Collecting files

Where the calls of the system succeed, every file below a directory is collected once, in the order of
paths, and the order in which entries are listed makes no difference. An entry that the system does not
tell the kind of is lost.

* `Directory.Lists`: the files below a directory.
* `FileSystem.collectFiles_lists`: what is collected below a path.
* `FileSystem.collectFiles_untold`: entries that are lost.
* `detour_collects_nothing`: a file that is lost because its path is too long.
-/

namespace ClauseLearning

/-! ## Sorting -/

section Sorting

variable {α : Type} {cmp : α → α → Ordering} [Std.TransCmp cmp] {xs ys : List α}

theorem pairwise_mergeSort_isLE (xs : List α) :
    (xs.mergeSort fun a b => (cmp a b).isLE).Pairwise fun a b => (cmp a b).isLE = true := by
  refine List.pairwise_mergeSort (fun _ _ _ => Std.TransCmp.isLE_trans) (fun a b => ?_) xs
  have hswap : cmp b a = (cmp a b).swap := Std.OrientedCmp.eq_swap
  rw [hswap]
  cases cmp a b <;> rfl

/-- A list is sorted to the strictly ascending one with the same entries. -/
theorem mergeSort_eq_of_perm (hperm : xs.Perm ys) (hys : ys.Pairwise fun a b => cmp a b = .lt) :
    (xs.mergeSort fun a b => (cmp a b).isLE) = ys := by
  have hle : ys.Pairwise fun a b => (cmp a b).isLE = true := hys.imp fun h => by rw [h]; rfl
  have hsorted : (xs.mergeSort fun a b => (cmp a b).isLE).Perm ys :=
    (List.mergeSort_perm _ _).trans hperm
  -- Two entries of `ys` are one below the other unless they are the same.
  have hlt : ∀ a ∈ ys, ∀ b ∈ ys, a ≠ b → cmp a b = .lt ∨ cmp b a = .lt :=
    have : Std.Symm fun a b => cmp a b = .lt ∨ cmp b a = .lt := ⟨fun _ _ => Or.symm⟩
    (hys.imp .inl).forall
  refine hsorted.eq_of_pairwise (fun a b ha hb hab hba => ?_) (pairwise_mergeSort_isLE xs) hle
  by_contra hne
  have hswap : cmp b a = (cmp a b).swap := Std.OrientedCmp.eq_swap
  rcases hlt a (hsorted.mem_iff.mp ha) b hb hne with h | h
  · simp [hswap, h] at hba
  · rw [hswap, Ordering.swap_eq_lt] at h
    simp [h] at hab

end Sorting

/-! ## The files of a directory in order -/

namespace Directory

variable {d d' : Directory} {dir : Path} {names : List FileName}
  {content : Except SystemError ByteArray}

/-- The files below a directory by their names and with what reading them gives, in the order of their
paths. -/
structure Lists (d : Directory) (dir : Path)
    (files : List (List FileName × Except SystemError ByteArray)) : Prop where
  mem_iff : ∀ names content, (names, content) ∈ files ↔ d.HasFile names content
  ascending : files.Pairwise fun x y => Path.compare (dir.below x.1) (dir.below y.1) = .lt

/-- The files below a directory by their names, in ascending order of the names. -/
def sortedFiles (d : Directory) : List (List FileName) :=
  d.filePaths.mergeSort fun a b => (List.compareLex Path.compareNames a b).isLE

/-- What reading the file gives that the names lead to; nothing can be read if there is none. -/
def contentOf (d : Directory) (names : List FileName) : Except SystemError ByteArray :=
  match Entry.follow names (.folder d) with
  | some (.file content) => content
  | _ => .ok .empty

theorem HasFile.contentOf_eq (h : d.HasFile names content) : d.contentOf names = content := by
  rw [HasFile] at h
  rw [contentOf, h]

theorem hasFile_iff (h : d.Valid) :
    d.HasFile names content ↔ names ∈ d.sortedFiles ∧ d.contentOf names = content := by
  have hsorted : names ∈ d.sortedFiles ↔ ∃ content, d.HasFile names content :=
    (List.mergeSort_perm _ _).mem_iff.trans (mem_filePaths h)
  rw [hsorted]
  constructor
  · exact fun hfile => ⟨⟨content, hfile⟩, hfile.contentOf_eq⟩
  · rintro ⟨⟨content', hfile⟩, hcontent⟩
    rwa [← hcontent, hfile.contentOf_eq]

/-- The names are in ascending order and no two of them are the same. -/
theorem pairwise_sortedFiles (h : d.Valid) :
    d.sortedFiles.Pairwise fun a b => List.compareLex Path.compareNames a b = .lt := by
  have hle : d.sortedFiles.Pairwise fun a b => (List.compareLex Path.compareNames a b).isLE = true :=
    pairwise_mergeSort_isLE _
  have hne : d.sortedFiles.Nodup := (List.mergeSort_perm _ _).nodup_iff.mpr (nodup_filePaths h)
  refine hle.imp₂ (fun a b hle hne => ?_) hne
  cases hcmp : List.compareLex Path.compareNames a b with
  | lt => rfl
  | eq => exact absurd (Std.LawfulEqCmp.eq_of_compare hcmp) hne
  | gt =>
    rw [hcmp] at hle
    cases hle

/-- The paths of the files are in ascending order and no two of them are the same. -/
theorem pairwise_below (h : d.Valid) (dir : Path) :
    d.sortedFiles.Pairwise fun a b => Path.compare (dir.below a) (dir.below b) = .lt := by
  have hnames : ∀ names ∈ d.sortedFiles, ∀ name ∈ names, ValidName name := fun names hmem =>
    ((hasFile_iff h).mpr ⟨hmem, rfl⟩).validName h
  refine (pairwise_sortedFiles h).imp_of_mem fun {a b} ha hb hlt => ?_
  rwa [Path.compare_below (hnames a ha) (hnames b hb)]

theorem lists_sortedFiles (h : d.Valid) (dir : Path) :
    d.Lists dir (d.sortedFiles.map fun names => (names, d.contentOf names)) where
  mem_iff names content := by
    rw [hasFile_iff h]
    simp
  ascending := List.pairwise_map.mpr (pairwise_below h dir)

theorem Relisted.sortedFiles_eq (h : d.Relisted d') (hd : d.Valid) :
    d'.sortedFiles = d.sortedFiles := by
  refine mergeSort_eq_of_perm ?_ (pairwise_sortedFiles hd)
  exact h.perm_filePaths.symm.trans (List.mergeSort_perm _ _).symm

end Directory

/-! ## Systems in memory -/

/-- Only a directory has entries. -/
def FileSystem.ListsOnlyDirectories (fs : FileSystem) : Prop :=
  ∀ path, fs.kind? path ≠ some .directory → ∃ cause, fs.entries path = .error cause

/-- The path leads to a directory, and the names from there to a file with this content. -/
def MemorySystem.HasFileBelow (m : MemorySystem) (dir : Path) (names : List FileName)
    (content : Except SystemError ByteArray) : Prop :=
  ∃ d, m.resolve dir = .ok (.folder d) ∧ d.HasFile names content

namespace MemorySystem

variable {m : MemorySystem} {path : Path} {d : Directory}

theorem kind?_of_resolve {e : Entry} (h : m.resolve path = .ok e) :
    m.answers.kind? path = some (kindOf e) := by
  simp [answers, h, Except.toOption]

theorem entries_of_resolve (h : m.resolve path = .ok (.folder d)) :
    m.answers.entries path = .ok (d.names.map .ok) := by
  simp [answers, h]

/-- Nothing is told of a path that is too long. -/
theorem kind?_of_long (h : m.maxPathSize < path.bytes.length) : m.answers.kind? path = none := by
  have hfails : (m.resolve path).toOption = none := by
    simp only [resolve, h, ↓reduceIte]
    split
    · rfl
    split
    · rfl
    · rfl
  simp [answers, hfails]

theorem listsOnlyDirectories (m : MemorySystem) : m.answers.ListsOnlyDirectories := by
  intro path hkind
  cases hpath : m.resolve path with
  | error e => exact ⟨m.words e, by simp [answers, hpath]⟩
  | ok e =>
    rw [kind?_of_resolve hpath] at hkind
    cases e with
    | folder d => exact absurd rfl hkind
    | file content => exact ⟨m.words .notDirectory, by simp [answers, hpath]⟩
    | other => exact ⟨m.words .notDirectory, by simp [answers, hpath]⟩

end MemorySystem

/-- Words of a system for what goes wrong. -/
def LookupError.words : LookupError → SystemError
  | notFound => ⟨"No such file or directory (os error 2)"⟩
  | notFile => ⟨"Is a directory (os error 21)"⟩
  | notDirectory => ⟨"Not a directory (os error 20)"⟩
  | tooLong => ⟨"File name too long (os error 36)"⟩
  | endsWithin => ⟨"file name contained an unexpected NUL byte"⟩

/-- A system with these directories at its root, where names have at most 255 bytes and paths 4095. -/
def systemOf (root : Directory) : MemorySystem := ⟨root, [], 255, 4095, LookupError.words⟩

/-- A directory with one file in front. -/
def Directory.withFile (name content : String) (rest : Directory) : Directory :=
  .file (Path.ofText name).bytes (.ok content.toUTF8) rest

/-- A directory with one directory in front. -/
def Directory.withFolder (name : String) (inner rest : Directory) : Directory :=
  .folder (Path.ofText name).bytes inner rest

theorem Directory.hasFile_withFile {name content : String} {rest : Directory} :
    (withFile name content rest).HasFile [(Path.ofText name).bytes] (.ok content.toUTF8) := by
  simp [withFile, HasFile, Entry.follow, find?]

/-! ## What is collected -/

namespace FileSystem

variable {fs fs' : FileSystem} {dir : Path} {d d' : Directory}

/-- The files below a directory that is shown are collected in the order of their names. -/
theorem Shows.collectFiles_eq (h : fs.Shows dir d) (hd : d.Valid) :
    fs.collectFiles dir = .ok (.files (d.sortedFiles.map dir.below)) := by
  have hopens : Traversal.Opens fs ⟨#[], [dir]⟩ [(dir, d)] := ⟨rfl, by simpa using h⟩
  obtain ⟨found, hfinish, hfound⟩ := Traversal.exists_finish hopens
  have hsorted : found.Perm (d.sortedFiles.map dir.below) := by
    refine hfound.trans ?_
    simp only [Traversal.files, Directory.filesFrom, List.flatMap_cons, List.flatMap_nil,
      List.append_nil, List.nil_append]
    exact (List.mergeSort_perm _ _).symm.map _
  have hascending : (d.sortedFiles.map dir.below).Pairwise fun a b => Path.compare a b = .lt :=
    List.pairwise_map.mpr (Directory.pairwise_below hd dir)
  rw [collectFiles_of_some h.kind_eq, hfinish]
  simp only [Except.map, mergeSort_eq_of_perm hsorted hascending]

/-- Below a directory that the system shows every regular file is collected, once, and nothing else.
The paths lead to the files and ascend strictly in the order of their components. How entries are
listed makes no difference. Below a path that leads to nothing there are no files, and a path that
leads to something else than a directory is an error. -/
theorem collectFiles_lists (fs : FileSystem) (dir : Path) :
    (∀ d : Directory, d.Valid → fs.Shows dir d → ∃ files, d.Lists dir files ∧
      fs.collectFiles dir = .ok (.files (files.map fun x => dir.below x.1)) ∧
      ∀ x ∈ files, fs.kind? (dir.below x.1) = some .regular ∧ fs.content (dir.below x.1) = x.2) ∧
    (∀ (fs' : FileSystem) (d d' : Directory), d.Valid → d.Relisted d' → fs.Shows dir d →
      fs'.Shows dir d' → fs'.collectFiles dir = fs.collectFiles dir) ∧
    (fs.kind? dir = none → ∃ found, fs.collectFiles dir = .ok found ∧ found.paths = []) ∧
    (fs.ListsOnlyDirectories → ∀ kind, fs.kind? dir = some kind → kind ≠ .directory →
      ∃ cause, fs.collectFiles dir = .error (.path dir cause)) := by
  refine ⟨fun d hd h => ?_, fun fs' d d' hd hlisted h h' => ?_, fun hnone => ?_,
    fun honly kind hkind hne => ?_⟩
  · have hlists := Directory.lists_sortedFiles hd dir
    refine ⟨_, hlists, ?_, fun x hx => h.below.of_hasFile ((hlists.mem_iff x.1 x.2).mp hx)⟩
    rw [h.collectFiles_eq hd, List.map_map]
    rfl
  · rw [h.collectFiles_eq hd, h'.collectFiles_eq (hlisted.valid hd), hlisted.sortedFiles_eq hd]
  · exact ⟨.missing dir, collectFiles_of_none hnone, rfl⟩
  · obtain ⟨cause, hentries⟩ := honly dir (by simpa [hkind] using hne)
    refine ⟨cause, ?_⟩
    have hfinish : Traversal.finish fs ⟨#[], [dir]⟩ = .error (.path dir cause) := by
      rw [Traversal.finish_cons, Traversal.read, hentries]
      rfl
    rw [collectFiles_of_some hkind, hfinish]
    rfl

end FileSystem

/-- Two files, one of them in a directory whose name is the beginning of the name of the other, and an
entry of another kind. The order of components is not that of the bytes here. -/
def nested : Directory :=
  .withFile "a-b" "" (.withFolder "a" (.withFile "x" "" .empty)
    (.other (Path.ofText "s").bytes .empty))

/-- The entries of `nested` in another order. -/
def nested' : Directory :=
  .withFolder "a" (.withFile "x" "" .empty)
    (.withFile "a-b" "" (.other (Path.ofText "s").bytes .empty))

private theorem nested_valid : nested.Valid := by
  have hname : ∀ name ∈ ["a-b", "a", "x", "s"], ValidName (Path.ofText name).bytes := by
    intro name hname
    constructor <;> revert name <;> decide
  simp only [List.forall_mem_cons] at hname
  obtain ⟨hab, ha, hx, hs, -⟩ := hname
  exact ⟨hab, by decide, ha, by decide, ⟨hx, rfl, trivial⟩, hs, rfl, trivial⟩

private theorem shows_nested :
    (systemOf (.withFolder "d" nested .empty)).answers.Shows (.ofText "d") nested where
  kind_eq := by decide
  entries_eq := by decide
  below := ⟨by decide, by decide, by decide, by decide,
    ⟨by decide, by decide, trivial⟩, by decide, trivial⟩

private theorem shows_nested' :
    (systemOf (.withFolder "d" nested' .empty)).answers.Shows (.ofText "d") nested' where
  kind_eq := by decide
  entries_eq := by decide
  below := ⟨by decide, by decide,
    ⟨by decide, by decide, trivial⟩, by decide, by decide,
    by decide, trivial⟩

/-- The file in the directory comes first, in whatever order the entries are listed. -/
theorem nested_collected : nested.Valid ∧
    (systemOf (.withFolder "d" nested .empty)).answers.Shows (.ofText "d") nested ∧
    (systemOf (.withFolder "d" nested' .empty)).answers.Shows (.ofText "d") nested' ∧
    (∃ files, nested.Lists (.ofText "d") files ∧
      (files.map fun x => (Path.ofText "d").below x.1) = [.ofText "d/a/x", .ofText "d/a-b"]) ∧
    (systemOf (.withFolder "d" nested' .empty)).answers.collectFiles (.ofText "d") =
      .ok (.files [.ofText "d/a/x", .ofText "d/a-b"]) ∧
    (∃ found, (systemOf (.withFolder "d" nested .empty)).answers.collectFiles (.ofText "e") =
      .ok found ∧ found.paths = []) ∧
    ∃ cause, (systemOf (.withFolder "d" nested .empty)).answers.collectFiles (.ofText "d/a-b") =
      .error (.path (.ofText "d/a-b") cause) := by
  have hsorted : nested.sortedFiles.map (Path.ofText "d").below =
      [.ofText "d/a/x", .ofText "d/a-b"] := by
    have hnames : nested.sortedFiles =
        [[(Path.ofText "a").bytes, (Path.ofText "x").bytes], [(Path.ofText "a-b").bytes]] :=
      mergeSort_eq_of_perm (by decide) (by decide)
    rw [hnames]
    decide
  have hcollect := shows_nested.collectFiles_eq nested_valid
  rw [hsorted] at hcollect
  have hrelisted : nested.Relisted nested' :=
    .swap _ _ (.file _) (.folder _) (.other _ .empty)
  refine ⟨nested_valid, shows_nested, shows_nested', ?_, ?_, ?_, ?_⟩
  · obtain ⟨files, hfiles, hpaths, -⟩ :=
      (FileSystem.collectFiles_lists _ _).1 nested nested_valid shows_nested
    refine ⟨files, hfiles, ?_⟩
    rw [hcollect] at hpaths
    exact (Found.files.inj (Except.ok.inj hpaths)).symm
  · exact ((FileSystem.collectFiles_lists _ _).2.1 _ nested nested' nested_valid hrelisted
      shows_nested shows_nested').trans hcollect
  · exact (FileSystem.collectFiles_lists _ _).2.2.1 (by decide)
  · exact (FileSystem.collectFiles_lists _ _).2.2.2 (MemorySystem.listsOnlyDirectories _) .regular
      (by decide) (by decide)

/-! ## Entries whose kind is not told -/

/-- Entries whose kind is not told make no difference. -/
theorem Traversal.visit_untold {fs : FileSystem} {dir : Path} {names : List FileName}
    (h : ∀ name ∈ names, fs.kind? (dir.join name) = none) (t : Traversal) :
    t.visit fs dir (names.map .ok) = .ok t := by
  induction names with
  | nil => rfl
  | cons name names ih =>
    obtain ⟨hname, hnames⟩ := List.forall_mem_cons.mp h
    simp only [List.map_cons, visit, hname]
    exact ih hnames

/-- A directory has no files, and there is no error, if the system lists its entries and does not tell
the kind of any. -/
theorem FileSystem.collectFiles_untold {fs : FileSystem} {dir : Path} {names : List FileName}
    (hkind : fs.kind? dir = some .directory) (hentries : fs.entries dir = .ok (names.map .ok))
    (h : ∀ name ∈ names, fs.kind? (dir.join name) = none) :
    fs.collectFiles dir = .ok (.files []) := by
  have hfinish : Traversal.finish fs ⟨#[], [dir]⟩ = .ok [] := by
    rw [Traversal.finish_cons, Traversal.read, hentries]
    simp only [Traversal.visit_untold h]
    exact Traversal.finish_nil fs #[]
  rw [collectFiles_of_some hkind, hfinish, Except.map, List.mergeSort_nil]

/-! ## A path that is too long -/

/-- A path to `d` with steps that lead nowhere. -/
def detour : Nat → Path
  | 0 => .ofText "d"
  | n + 1 => ⟨Path.herePart ++ Path.slash :: (detour n).bytes⟩

theorem parts_detour (n : Nat) :
    (detour n).parts = List.replicate n Path.herePart ++ [(Path.ofText "d").bytes] := by
  induction n with
  | zero => decide
  | succ n ih =>
    rw [detour, Path.parts_append_slash, ih]
    rfl

theorem length_detour (n : Nat) : (detour n).bytes.length = 2 * n + 1 := by
  induction n with
  | zero => decide
  | succ n ih =>
    rw [detour, List.length_append, List.length_cons, ih]
    show 1 + _ = _
    omega

theorem not_mem_detour (n : Nat) : 0 ∉ (detour n).bytes := by
  induction n with
  | zero => decide
  | succ n ih => simp [detour, ih, Path.herePart, Path.slash]

theorem getLast?_detour (n : Nat) : (detour n).bytes.getLast? = some 0x64 := by
  induction n with
  | zero => decide
  | succ n ih => simp [detour, List.getLast?_append, List.getLast?_cons, ih]

theorem walk_detour (n size : Nat) (part : FileName) (parents : List Directory) (d : Directory) :
    Directory.walk size (List.replicate n Path.herePart ++ [part]) parents (.folder d) =
      Directory.walk size [part] parents (.folder d) := by
  induction n with
  | zero => rfl
  | succ n ih => exact ih

/-- A name of thirty letters. -/
def longName : String := "aaaaaaaaaaaaaaaaaaaaaaaaaaaaaa"

/-- An instance under a long name in the directory `d`. -/
def longNamed : MemorySystem := systemOf (.withFolder "d" (.withFile longName "1 0" .empty) .empty)

theorem longNamed_valid : longNamed.root.Valid := by
  have hname : ∀ name ∈ ["d", longName], ValidName (Path.ofText name).bytes := by
    intro name hname
    constructor <;> revert name <;> decide
  simp only [List.forall_mem_cons] at hname
  exact ⟨hname.1, rfl, ⟨hname.2.1, rfl, trivial⟩, trivial⟩

theorem resolve_detour {n : Nat} (hn : 2 * n + 1 ≤ 4095) :
    longNamed.resolve (detour n) = .ok (.folder (.withFile longName "1 0" .empty)) := by
  have hne : (detour n).bytes ≠ [] := by
    intro h
    have := length_detour n
    simp [h] at this
  have hroot : (detour n).bytes.head? ≠ some Path.slash := by
    cases n with
    | zero => decide
    | succ n => simp [detour, Path.herePart, Path.slash]
  have hfits : ¬4095 < (detour n).bytes.length := by
    rw [length_detour]
    omega
  have hname : (Path.ofText "d").bytes = [0x64] := by decide
  simp only [MemorySystem.resolve, MemorySystem.partsFromRoot, longNamed, systemOf,
    List.contains_iff_mem, not_mem_detour, hne, hfits, hroot, parts_detour, ↓reduceIte,
    List.nil_append, walk_detour]
  rw [Directory.withFolder, hname]
  rfl

/-- Nothing is told of the file if the path of the directory is so long that the name does not fit. -/
theorem kind?_detour {n : Nat} (hlong : 4095 < 2 * n + 32) :
    longNamed.answers.kind? ((detour n).join (Path.ofText longName).bytes) = none := by
  have hsize : (Path.ofText longName).bytes.length = 30 := by decide
  have hroot : (Path.ofText longName).bytes.head? ≠ some Path.slash := by decide
  have hend : (detour n).bytes.getLast?.all (· == Path.slash) = false := by
    rw [getLast?_detour]
    rfl
  refine MemorySystem.kind?_of_long ?_
  rw [Path.join, if_neg hroot, hend]
  simp only [Bool.false_eq_true, ↓reduceIte, List.length_append, List.length_cons, length_detour,
    hsize]
  exact Nat.lt_of_lt_of_eq hlong (by omega)

/-- The directory is read, and nothing is found. -/
theorem collectFiles_detour {n : Nat} (hn : 2 * n + 1 ≤ 4095) (hlong : 4095 < 2 * n + 32) :
    longNamed.answers.collectFiles (detour n) = .ok (.files []) := by
  have hdir := resolve_detour hn
  refine FileSystem.collectFiles_untold (MemorySystem.kind?_of_resolve hdir)
    (MemorySystem.entries_of_resolve hdir) fun name hname => ?_
  obtain rfl := List.mem_singleton.mp hname
  exact kind?_detour hlong

theorem hasFileBelow_detour {n : Nat} (hn : 2 * n + 1 ≤ 4095) :
    longNamed.HasFileBelow (detour n) [(Path.ofText longName).bytes] (.ok "1 0".toUTF8) :=
  ⟨_, resolve_detour hn, Directory.hasFile_withFile⟩

/-- A file is not collected although it is below the directory. -/
theorem detour_collects_nothing : longNamed.root.Valid ∧
    longNamed.HasFileBelow (detour 2040) [(Path.ofText longName).bytes] (.ok "1 0".toUTF8) ∧
    longNamed.answers.collectFiles (detour 2040) = .ok (.files []) :=
  ⟨longNamed_valid, hasFileBelow_detour (by decide), collectFiles_detour (by decide) (by decide)⟩

end ClauseLearning
