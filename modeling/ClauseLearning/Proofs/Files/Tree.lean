import ClauseLearning.Files.Directory
import Mathlib.Data.List.Nodup
import Mathlib.Data.List.Perm.Basic

/-!
# Files of a directory tree

In a tree whose names are sound and distinct in each directory, the files that are listed are those
that names lead to.

* `Directory.Valid`: such trees.
* `Directory.mem_filePaths`, `Directory.nodup_filePaths`: the listed files, each once.
* `Directory.Relisted`: the same tree, listed in another order.
-/

namespace ClauseLearning

/-- A name that an entry of a directory can have. -/
structure ValidName (name : FileName) : Prop where
  ne_nil : name ≠ []
  ne_here : name ≠ Path.herePart
  ne_parent : name ≠ Path.parentPart
  no_slash : Path.slash ∉ name

/-- The names of each directory of the tree are valid and distinct. -/
def Directory.Valid : Directory → Prop
  | empty => True
  | file name _ rest | other name rest => ValidName name ∧ rest.find? name = none ∧ rest.Valid
  | folder name inner rest => ValidName name ∧ rest.find? name = none ∧ inner.Valid ∧ rest.Valid

/-- Every directory below the entry is valid. -/
def Entry.Valid : Entry → Prop
  | .file _ | .other => True
  | .folder d => d.Valid

namespace Directory

/-- The files at any depth, each by the names that lead to it. -/
def filePaths : Directory → List (List FileName)
  | empty => []
  | file name _ rest => [name] :: rest.filePaths
  | folder name inner rest => inner.filePaths.map (name :: ·) ++ rest.filePaths
  | other _ rest => rest.filePaths

/-- The names lead from the directory to a file with this content. -/
def HasFile (d : Directory) (names : List FileName) (content : Except SystemError ByteArray) : Prop :=
  Entry.follow names (.folder d) = some (.file content)

variable {d d' inner rest : Directory} {name name' : FileName} {names : List FileName}
  {content : Except SystemError ByteArray} {e : Entry}

theorem find?_cons :
    (cons name e rest).find? name' = if name = name' then some e else rest.find? name' := by
  cases e <;> rfl

theorem valid_cons : (cons name e rest).Valid ↔
    ValidName name ∧ rest.find? name = none ∧ e.Valid ∧ rest.Valid := by
  cases e <;> simp [cons, Valid, Entry.Valid]

/-- An induction that does not ask what the entries are. -/
@[elab_as_elim]
theorem induct_cons {motive : Directory → Prop} (empty : motive .empty)
    (cons : ∀ name e rest, motive rest → motive (.cons name e rest)) (d : Directory) : motive d := by
  induction d with
  | empty => exact empty
  | file name content rest ih => exact cons name (.file content) rest ih
  | folder name inner rest _ ih => exact cons name (.folder inner) rest ih
  | other name rest ih => exact cons name .other rest ih

theorem valid_of_find? (h : d.Valid) (hf : d.find? name = some e) :
    ValidName name ∧ e.Valid := by
  induction d using induct_cons with
  | empty => cases hf
  | cons n e' rest ih =>
    obtain ⟨hn, -, he, hrest⟩ := valid_cons.mp h
    rw [find?_cons] at hf
    split at hf
    · next heq =>
      cases hf
      exact ⟨heq ▸ hn, he⟩
    · exact ih hrest hf

/-! ## The listed files -/

theorem not_hasFile_nil : ¬d.HasFile [] content := by
  simp [HasFile, Entry.follow]

theorem hasFile_cons : d.HasFile (name :: names) content ↔
    d.find? name = some (.file content) ∧ names = [] ∨
      ∃ inner, d.find? name = some (.folder inner) ∧ inner.HasFile names content := by
  rw [HasFile, Entry.follow, Option.bind_eq_some_iff]
  constructor
  · rintro ⟨e, he, h⟩
    cases e with
    | file content =>
      cases names with
      | nil => exact .inl ⟨by simpa [Entry.follow] using he.trans h, rfl⟩
      | cons _ _ => cases h
    | folder inner => exact .inr ⟨inner, he, h⟩
    | other => cases names <;> cases h
  · rintro (⟨h, rfl⟩ | ⟨inner, h, hfile⟩)
    · exact ⟨_, h, rfl⟩
    · exact ⟨_, h, hfile⟩

theorem HasFile.validName (hd : d.Valid) (h : d.HasFile names content) :
    ∀ name ∈ names, ValidName name := by
  induction names generalizing d with
  | nil => exact absurd h not_hasFile_nil
  | cons name names ih =>
    rcases hasFile_cons.mp h with ⟨hfind, rfl⟩ | ⟨inner, hfind, hfile⟩
    · simpa using (valid_of_find? hd hfind).1
    · obtain ⟨hname, hinner⟩ := valid_of_find? hd hfind
      exact List.forall_mem_cons.mpr ⟨hname, ih hinner hfile⟩

/-- A file is listed under the names that lead to it. -/
theorem mem_filePaths (h : d.Valid) : names ∈ d.filePaths ↔ ∃ content, d.HasFile names content := by
  induction d generalizing names with
  | empty =>
    cases names with
    | nil => simp [filePaths, not_hasFile_nil]
    | cons m ms => simp [filePaths, hasFile_cons, find?]
  | file n content rest ih =>
    obtain ⟨-, hfree, hrest⟩ := h
    rw [filePaths, List.mem_cons, ih hrest]
    cases names with
    | nil => simp [not_hasFile_nil]
    | cons m ms =>
      simp only [hasFile_cons, find?]
      by_cases hm : n = m
      · subst hm
        simp [hfree]
      · simp [hm, Ne.symm hm]
  | folder n inner rest ihinner ih =>
    obtain ⟨-, hfree, hinner, hrest⟩ := h
    rw [filePaths, List.mem_append, List.mem_map, ih hrest]
    cases names with
    | nil => simp [not_hasFile_nil]
    | cons m ms =>
      simp only [hasFile_cons, find?]
      by_cases hm : n = m
      · subst hm
        simp [hfree, ihinner hinner]
      · simp [hm]
  | other n rest ih =>
    obtain ⟨-, hfree, hrest⟩ := h
    rw [filePaths, ih hrest]
    cases names with
    | nil => simp [not_hasFile_nil]
    | cons m ms =>
      simp only [hasFile_cons, find?]
      by_cases hm : n = m
      · subst hm
        simp [hfree]
      · simp [hm]

/-- A listed file begins with the name of an entry. -/
theorem find?_of_mem_filePaths (h : d.Valid) (hmem : name :: names ∈ d.filePaths) :
    d.find? name ≠ none := by
  obtain ⟨content, hfile⟩ := (mem_filePaths h).mp hmem
  rcases hasFile_cons.mp hfile with ⟨hfind, -⟩ | ⟨inner, hfind, -⟩ <;> simp [hfind]

theorem nodup_filePaths (h : d.Valid) : d.filePaths.Nodup := by
  induction d with
  | empty => exact List.nodup_nil
  | file n content rest ih =>
    obtain ⟨-, hfree, hrest⟩ := h
    exact List.nodup_cons.mpr
      ⟨fun hmem => find?_of_mem_filePaths hrest hmem hfree, ih hrest⟩
  | folder n inner rest ihinner ih =>
    obtain ⟨-, hfree, hinner, hrest⟩ := h
    refine List.nodup_append.mpr ⟨?_, ih hrest, ?_⟩
    · exact (ihinner hinner).map_on fun _ _ _ _ heq => (List.cons.inj heq).2
    · rintro _ hmem _ hmem' rfl
      obtain ⟨names, -, rfl⟩ := List.mem_map.mp hmem
      exact find?_of_mem_filePaths hrest hmem' hfree
  | other n rest ih => exact ih h.2.2

/-! ## Entries in another order -/

/-- The same entries in another order, in the directory and in all those below it. -/
inductive Relisted : Directory → Directory → Prop where
  | empty : Relisted .empty .empty
  | file (name : FileName) (content : Except SystemError ByteArray) {rest rest' : Directory} :
    Relisted rest rest' → Relisted (.file name content rest) (.file name content rest')
  | folder (name : FileName) {inner inner' rest rest' : Directory} :
    Relisted inner inner' → Relisted rest rest' →
      Relisted (.folder name inner rest) (.folder name inner' rest')
  | other (name : FileName) {rest rest' : Directory} :
    Relisted rest rest' → Relisted (.other name rest) (.other name rest')
  | swap (name name' : FileName) (e e' : Entry) (rest : Directory) :
    Relisted (cons name e (cons name' e' rest)) (cons name' e' (cons name e rest))
  | trans {d d' d'' : Directory} : Relisted d d' → Relisted d' d'' → Relisted d d''

namespace Relisted

theorem find?_eq_none_iff (h : d.Relisted d') (name : FileName) :
    d.find? name = none ↔ d'.find? name = none := by
  induction h with
  | empty => rfl
  | file n content _ ih =>
    rw [Directory.find?, Directory.find?]
    split
    · simp
    · exact ih
  | folder n _ _ _ ih =>
    rw [Directory.find?, Directory.find?]
    split
    · simp
    · exact ih
  | other n _ ih =>
    rw [Directory.find?, Directory.find?]
    split
    · simp
    · exact ih
  | swap n n' e e' rest =>
    simp only [find?_cons]
    grind
  | trans _ _ ih ih' => exact ih.trans ih'

theorem valid (h : d.Relisted d') (hd : d.Valid) : d'.Valid := by
  induction h with
  | empty => trivial
  | file name content hrest ih =>
    obtain ⟨hname, hfree, hd⟩ := hd
    exact ⟨hname, (hrest.find?_eq_none_iff name).mp hfree, ih hd⟩
  | folder name _ hrest ihinner ih =>
    obtain ⟨hname, hfree, hinner, hd⟩ := hd
    exact ⟨hname, (hrest.find?_eq_none_iff name).mp hfree, ihinner hinner, ih hd⟩
  | other name hrest ih =>
    obtain ⟨hname, hfree, hd⟩ := hd
    exact ⟨hname, (hrest.find?_eq_none_iff name).mp hfree, ih hd⟩
  | swap name name' e e' rest =>
    simp only [valid_cons, find?_cons] at hd ⊢
    grind
  | trans _ _ ih ih' => exact ih' (ih hd)

theorem perm_filePaths (h : d.Relisted d') : d.filePaths.Perm d'.filePaths := by
  induction h with
  | empty => exact .refl _
  | file name content _ ih => exact ih.cons _
  | folder name _ _ ihinner ih => exact (ihinner.map _).append ih
  | other name _ ih => exact ih
  | swap name name' e e' rest =>
    cases e <;> cases e' <;> simp only [cons, filePaths] <;> grind
  | trans _ _ ih ih' => exact ih.trans ih'

end Relisted

end Directory

end ClauseLearning
