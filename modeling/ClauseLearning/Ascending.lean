/-!
# Ascending sequences

Sequences without duplicates, in strictly ascending order of a numeric key. They hold the literals of
a clause and the variables of a formula.

* `Ascending.sorted_insert`, `Ascending.mem_insert`: an insertion keeps the order and adds one entry.
* `Ascending.sorted_ofList`, `Ascending.mem_ofList`: a list is turned into the ascending sequence of
  its entries.
* `Ascending.search_eq_some_iff`: binary search finds the entry with a key, if there is one.
-/

namespace ClauseLearning

namespace Ascending

variable {α : Type} {key : α → Nat}

/-- The keys grow strictly along the list. -/
def Sorted (key : α → Nat) (xs : List α) : Prop := xs.Pairwise (key · < key ·)

instance (key : α → Nat) (xs : List α) : Decidable (Sorted key xs) :=
  inferInstanceAs (Decidable (xs.Pairwise _))

/-! ## Insertion -/

/-- Puts `x` at its place, unless an entry with its key is there already. -/
def insert (key : α → Nat) (x : α) : List α → List α
  | [] => [x]
  | y :: ys =>
    if key x < key y then x :: y :: ys
    else if key x = key y then y :: ys
    else y :: insert key x ys

/-- The entries of a list in ascending order, each key once. -/
def ofList (key : α → Nat) (xs : List α) : List α := xs.foldr (insert key) []

theorem mem_of_mem_insert {x a : α} {ys : List α} (h : a ∈ insert key x ys) : a = x ∨ a ∈ ys := by
  induction ys with
  | nil => simpa [insert] using h
  | cons y ys ih =>
    simp only [insert] at h
    split at h
    · simpa using h
    · split at h
      · exact .inr h
      · rcases List.mem_cons.mp h with rfl | h
        · simp
        · rcases ih h with h | h <;> simp [h]

/-- An insertion adds `x` and keeps every other entry. -/
theorem mem_insert (inj : ∀ a b, key a = key b → a = b) {x a : α} {ys : List α} :
    a ∈ insert key x ys ↔ a = x ∨ a ∈ ys := by
  refine ⟨mem_of_mem_insert, fun h => ?_⟩
  induction ys with
  | nil => simpa [insert] using h
  | cons y ys ih =>
    simp only [insert]
    split
    · simpa using h
    · split
      · next heq =>
        rcases h with rfl | h
        · simp [inj _ _ heq]
        · exact h
      · rcases h with rfl | h
        · exact List.mem_cons_of_mem _ (ih (.inl rfl))
        · rcases List.mem_cons.mp h with rfl | h
          · simp
          · exact List.mem_cons_of_mem _ (ih (.inr h))

theorem sorted_insert {x : α} {ys : List α} (h : Sorted key ys) : Sorted key (insert key x ys) := by
  induction ys with
  | nil => simp [insert, Sorted]
  | cons y ys ih =>
    obtain ⟨hy, hys⟩ := List.pairwise_cons.mp h
    simp only [insert]
    split
    · next hlt =>
      refine List.pairwise_cons.mpr ⟨fun b hb => ?_, h⟩
      rcases List.mem_cons.mp hb with rfl | hb
      · exact hlt
      · exact Nat.lt_trans hlt (hy b hb)
    · split
      · exact h
      · refine List.pairwise_cons.mpr ⟨fun b hb => ?_, ih hys⟩
        rcases mem_of_mem_insert hb with rfl | hb
        · omega
        · exact hy b hb

theorem sorted_ofList (xs : List α) : Sorted key (ofList key xs) := by
  induction xs with
  | nil => simp [ofList, Sorted]
  | cons x xs ih => exact sorted_insert ih

theorem mem_ofList (inj : ∀ a b, key a = key b → a = b) {a : α} {xs : List α} :
    a ∈ ofList key xs ↔ a ∈ xs := by
  induction xs with
  | nil => simp [ofList]
  | cons x xs ih =>
    have h : ofList key (x :: xs) = insert key x (ofList key xs) := rfl
    rw [h, mem_insert inj, ih, List.mem_cons]

/-- Two ascending lists with the same entries are equal. -/
theorem eq_of_mem_iff {xs ys : List α} (hx : Sorted key xs) (hy : Sorted key ys)
    (h : ∀ a, a ∈ xs ↔ a ∈ ys) : xs = ys := by
  induction xs generalizing ys with
  | nil =>
    cases ys with
    | nil => rfl
    | cons y ys => exact absurd ((h y).mpr (by simp)) (by simp)
  | cons x xs ih =>
    cases ys with
    | nil => exact absurd ((h x).mp (by simp)) (by simp)
    | cons y ys =>
      obtain ⟨hx0, hx1⟩ := List.pairwise_cons.mp hx
      obtain ⟨hy0, hy1⟩ := List.pairwise_cons.mp hy
      have hxy : x = y := by
        rcases List.mem_cons.mp ((h x).mp (by simp)) with hm | hm
        · exact hm
        · rcases List.mem_cons.mp ((h y).mpr (by simp)) with hn | hn
          · exact hn.symm
          · have h1 := hy0 x hm
            have h2 := hx0 y hn
            omega
      subst hxy
      refine congrArg (x :: ·) (ih hx1 hy1 fun a => ⟨fun ha => ?_, fun ha => ?_⟩)
      · rcases List.mem_cons.mp ((h a).mp (List.mem_cons_of_mem _ ha)) with rfl | hm
        · exact absurd (hx0 a ha) (Nat.lt_irrefl _)
        · exact hm
      · rcases List.mem_cons.mp ((h a).mpr (List.mem_cons_of_mem _ ha)) with rfl | hm
        · exact absurd (hy0 a ha) (Nat.lt_irrefl _)
        · exact hm

/-! ## Binary search -/

/-- The index in `[lo, hi)` of the entry with key `k`, in at most `steps` halvings. -/
def searchWithin (key : α → Nat) (xs : Array α) (k : Nat) : Nat → Nat → Nat → Option Nat
  | 0, _, _ => none
  | steps + 1, lo, hi =>
    if lo < hi then
      let mid := (lo + hi) / 2
      match xs[mid]? with
      | none => none
      | some x =>
        if key x = k then some mid
        else if key x < k then searchWithin key xs k steps (mid + 1) hi
        else searchWithin key xs k steps lo mid
    else none

/-- The index of the entry with key `k` in an ascending array. -/
def search (key : α → Nat) (xs : Array α) (k : Nat) : Option Nat :=
  searchWithin key xs k xs.size 0 xs.size

theorem key_of_searchWithin {xs : Array α} {k steps lo hi i : Nat}
    (h : searchWithin key xs k steps lo hi = some i) : ∃ x, xs[i]? = some x ∧ key x = k := by
  induction steps generalizing lo hi with
  | zero => simp [searchWithin] at h
  | succ steps ih =>
    simp only [searchWithin] at h
    split at h
    · split at h
      · simp at h
      · next x hx =>
        split at h
        · next hk => cases h; exact ⟨x, hx, hk⟩
        · split at h <;> exact ih h
    · simp at h

theorem sorted_getElem_lt {xs : Array α} (hs : Sorted key xs.toList) {i j : Nat} {x y : α}
    (hx : xs[i]? = some x) (hy : xs[j]? = some y) (hij : i < j) : key x < key y := by
  rw [← Array.getElem?_toList] at hx hy
  obtain ⟨hi, rfl⟩ := List.getElem?_eq_some_iff.mp hx
  obtain ⟨hj, rfl⟩ := List.getElem?_eq_some_iff.mp hy
  exact List.pairwise_iff_getElem.mp hs i j hi hj hij

theorem sorted_index_unique {xs : Array α} (hs : Sorted key xs.toList) {i j : Nat} {x y : α}
    (hx : xs[i]? = some x) (hy : xs[j]? = some y) (hk : key x = key y) : i = j := by
  rcases Nat.lt_trichotomy i j with h | h | h
  · have := sorted_getElem_lt hs hx hy h; omega
  · exact h
  · have := sorted_getElem_lt hs hy hx h; omega

theorem searchWithin_of_key {xs : Array α} (hs : Sorted key xs.toList) {k steps lo hi i : Nat}
    {x : α} (hx : xs[i]? = some x) (hk : key x = k) (hlo : lo ≤ i) (hhi : i < hi)
    (hsize : hi ≤ xs.size) (hsteps : hi - lo ≤ steps) :
    searchWithin key xs k steps lo hi = some i := by
  induction steps generalizing lo hi with
  | zero => omega
  | succ steps ih =>
    have hmid : (lo + hi) / 2 < xs.size := by omega
    simp only [searchWithin]
    rw [if_pos (by omega), Array.getElem?_eq_getElem hmid]
    have hm := Array.getElem?_eq_getElem hmid
    by_cases heq : key xs[(lo + hi) / 2] = k
    · simp only [heq, ↓reduceIte, Option.some.injEq]
      exact sorted_index_unique hs hm hx (by omega)
    · simp only [heq, ↓reduceIte]
      have hne : (lo + hi) / 2 ≠ i := by
        rintro rfl
        rw [hm] at hx
        cases hx
        exact heq hk
      split
      · next hlt =>
        refine ih ?_ hhi hsize (by omega)
        apply Nat.lt_of_not_le
        intro hle
        have := sorted_getElem_lt hs hx hm (by omega)
        omega
      · next hlt =>
        refine ih hlo ?_ (by omega) (by omega)
        apply Nat.lt_of_not_le
        intro hle
        have := sorted_getElem_lt hs hm hx (by omega)
        omega

/-- Binary search of an ascending array finds exactly the entry with the key. -/
theorem search_eq_some_iff {xs : Array α} (hs : Sorted key xs.toList) {k i : Nat} :
    search key xs k = some i ↔ ∃ x, xs[i]? = some x ∧ key x = k := by
  refine ⟨key_of_searchWithin, fun ⟨x, hx, hk⟩ => ?_⟩
  have hi : i < xs.size := by
    obtain ⟨h, -⟩ := Array.getElem?_eq_some_iff.mp hx
    exact h
  exact searchWithin_of_key hs hx hk (Nat.zero_le _) hi (Nat.le_refl _) (by omega)

theorem isSome_search_iff {xs : Array α} (hs : Sorted key xs.toList) {k : Nat} :
    (search key xs k).isSome ↔ ∃ x ∈ xs, key x = k := by
  rw [Option.isSome_iff_exists]
  constructor
  · rintro ⟨i, hi⟩
    obtain ⟨x, hx, hk⟩ := (search_eq_some_iff hs).mp hi
    exact ⟨x, Array.mem_of_getElem? hx, hk⟩
  · rintro ⟨x, hx, hk⟩
    obtain ⟨i, hi⟩ := Array.mem_iff_getElem?.mp hx
    exact ⟨i, (search_eq_some_iff hs).mpr ⟨x, hi, hk⟩⟩

end Ascending

end ClauseLearning
