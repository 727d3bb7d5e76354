import ClauseLearning.Proofs.Files.Tree

/-!
# Paths below a directory

Paths below one directory are in the order of the names that lead from there, whether or not the path
of the directory ends with a slash.

* `Path.components_join`, `Path.components_below`: the components of the path of an entry.
* `Path.compare_below`: how the paths of two entries compare.
-/

namespace ClauseLearning

namespace Path

/-! ## The order of components -/

instance : Std.TransCmp compareNames :=
  inferInstanceAs (Std.TransCmp (List.compareLex (Ord.compare : UInt8 → UInt8 → Ordering)))

instance : Std.LawfulEqCmp compareNames :=
  inferInstanceAs (Std.LawfulEqCmp (List.compareLex (Ord.compare : UInt8 → UInt8 → Ordering)))

instance : Std.TransCmp fun a b : Component => compareNames a.bytes b.bytes where
  eq_swap := Std.OrientedCmp.eq_swap
  isLE_trans := Std.TransCmp.isLE_trans

instance : Std.TransCmp Component.compare :=
  inferInstanceAs (Std.TransCmp (compareLex (compareOn Component.rank) _))

instance : Std.TransCmp compare :=
  have h : Std.TransCmp (List.compareLex Component.compare) := inferInstance
  { eq_swap := h.eq_swap, isLE_trans := h.isLE_trans }

@[simp] theorem Component.compare_name (s t : FileName) :
    Component.compare (.name s) (.name t) = compareNames s t := by
  simp [Component.compare, compareLex, compareOn, Component.rank, Component.bytes]

theorem compareLex_map_name (xs ys : List FileName) :
    List.compareLex Component.compare (xs.map .name) (ys.map .name) =
      List.compareLex compareNames xs ys := by
  induction xs generalizing ys with
  | nil => cases ys <;> rfl
  | cons x xs ih =>
    cases ys with
    | nil => rfl
    | cons y ys => simp only [List.map_cons, List.compareLex_cons_cons, Component.compare_name, ih]

theorem compareLex_append (cs xs ys : List Component) :
    List.compareLex Component.compare (cs ++ xs) (cs ++ ys) =
      List.compareLex Component.compare xs ys := by
  induction cs with
  | nil => rfl
  | cons c cs ih =>
    have hself : Component.compare c c = .eq := Std.ReflCmp.compare_self
    rw [List.cons_append, List.cons_append, List.compareLex_cons_cons, hself, ih]
    rfl

/-! ## Paths of entries -/

variable {dir : Path} {name : FileName} {names names' : List FileName}

theorem parts_append_slash (s t : List UInt8) :
    parts ⟨s ++ slash :: t⟩ = parts ⟨s⟩ ++ parts ⟨t⟩ :=
  List.splitOn_append_cons_self s t

theorem parts_eq_singleton (hslash : slash ∉ name) : parts ⟨name⟩ = [name] :=
  List.splitOn_eq_singleton hslash

theorem parts_ne_nil (p : Path) : p.parts ≠ [] :=
  List.splitOn_ne_nil _ _

/-- What follows a slash adds its parts, but for those that make no difference. -/
theorem components_append_slash (s t : List UInt8) : components ⟨s ++ slash :: t⟩ =
    components ⟨s ++ [slash]⟩ ++ (parts ⟨t⟩).filterMap Component.ofPart? := by
  have hfirst : (s ++ slash :: t).head? = (s ++ [slash]).head? := by cases s <;> rfl
  have hempty : (parts ⟨[]⟩).filterMap Component.ofPart? = [] := rfl
  simp only [components, hfirst, parts_append_slash, List.head?_append_of_ne_nil _ (parts_ne_nil _),
    List.filterMap_append, hempty, List.append_nil, List.append_assoc]

/-- A slash at the end of a path does not show. -/
theorem components_slash_end {s : List UInt8} (hs : s ≠ []) :
    components ⟨s ++ [slash]⟩ = components ⟨s⟩ := by
  have hempty : (parts ⟨[]⟩).filterMap Component.ofPart? = [] := rfl
  simp only [components, List.head?_append_of_ne_nil _ hs, parts_append_slash,
    List.head?_append_of_ne_nil _ (parts_ne_nil _), List.filterMap_append, hempty, List.append_nil]

theorem ofPart?_of_valid (hname : ValidName name) : Component.ofPart? name = some (.name name) := by
  simp [Component.ofPart?, hname.ne_nil, hname.ne_here, hname.ne_parent]

/-- The name of an entry comes behind the components of the directory. -/
theorem components_join (hname : ValidName name) :
    components (join dir name) = components dir ++ [.name name] := by
  have hparts : (parts ⟨name⟩).filterMap Component.ofPart? = [.name name] := by
    rw [parts_eq_singleton hname.no_slash]
    simp [ofPart?_of_valid hname]
  have hroot : name.head? ≠ some slash := fun h => hname.no_slash (List.mem_of_head? h)
  obtain ⟨bytes⟩ := dir
  rw [join, if_neg hroot]
  rcases List.eq_nil_or_concat bytes with rfl | ⟨s, b, rfl⟩
  · have hhere : (parts ⟨name⟩).head? ≠ some herePart := by
      rw [parts_eq_singleton hname.no_slash]
      simpa using hname.ne_here
    have hnone : components ⟨[]⟩ = [] := rfl
    have hself : components ⟨name⟩ = [.name name] := by simp [components, hroot, hhere, hparts]
    simpa [hnone] using hself
  · by_cases hb : b = slash
    · subst hb
      simpa [hparts] using components_append_slash s name
    · have hend := components_slash_end (s := s ++ [b]) (by simp)
      have hslash := components_append_slash (s ++ [b]) name
      rw [hend, hparts] at hslash
      simpa [hb] using hslash

/-- The components of the path of an entry are those of the directory and the names from there. -/
theorem components_below (hnames : ∀ name ∈ names, ValidName name) :
    components (dir.below names) = components dir ++ names.map .name := by
  induction names generalizing dir with
  | nil => simp [below]
  | cons name names ih =>
    obtain ⟨hname, hnames⟩ := List.forall_mem_cons.mp hnames
    rw [below, List.foldl_cons, ← below, ih hnames, components_join hname]
    simp

/-- Two entries below a directory are in the order of the names that lead to them. -/
theorem compare_below (hnames : ∀ name ∈ names, ValidName name)
    (hnames' : ∀ name ∈ names', ValidName name) :
    compare (dir.below names) (dir.below names') = List.compareLex compareNames names names' := by
  rw [compare, components_below hnames, components_below hnames', compareLex_append,
    compareLex_map_name]

end Path

end ClauseLearning
