import DualHessian.Failure

/-!
# Sets of degrees of freedom

A `DofSet` is a set of indices below a fixed size, held as an ascending list without repetition.
There is one list for each set, so equality of values is equality of sets.

* `DofSet.ofList` builds a set from any list of indices and refuses those that are not below the
  size.
* `DofSet.union` merges two sets over the same index space.
* `DofSet.position?` is the place of an index among the elements.
-/

namespace DualHessian

/-! ## Ascending lists -/

/-- Puts an index into its place in an ascending list, unless it is there already. -/
def insertAscending (i : Nat) : List Nat → List Nat
  | [] => [i]
  | j :: rest =>
    if i < j then i :: j :: rest
    else if j < i then j :: insertAscending i rest
    else j :: rest

/-- The ascending list of the entries of a list, each once. -/
def ascending (is : List Nat) : List Nat := is.foldr insertAscending []

@[simp] theorem mem_insertAscending {i k : Nat} {is : List Nat} :
    k ∈ insertAscending i is ↔ k = i ∨ k ∈ is := by
  induction is with
  | nil => simp [insertAscending]
  | cons j rest ih =>
    simp only [insertAscending]
    split
    · simp
    · split
      · simp only [List.mem_cons, ih]
        grind
      · have : i = j := by omega
        subst this
        simp

@[simp] theorem mem_ascending {k : Nat} {is : List Nat} : k ∈ ascending is ↔ k ∈ is := by
  induction is with
  | nil => simp [ascending]
  | cons i rest ih =>
    simp only [ascending, List.foldr_cons, mem_insertAscending, List.mem_cons]
    exact or_congr Iff.rfl ih

/-- Insertion keeps a list ascending. -/
theorem insertAscending_sorted {i : Nat} {is : List Nat} (h : is.Pairwise (· < ·)) :
    (insertAscending i is).Pairwise (· < ·) := by
  induction is with
  | nil => simp [insertAscending]
  | cons j rest ih =>
    obtain ⟨hj, hrest⟩ := List.pairwise_cons.1 h
    simp only [insertAscending]
    split
    · rename_i hij
      refine List.pairwise_cons.2 ⟨fun k hk => ?_, h⟩
      rcases List.mem_cons.1 hk with rfl | hk
      · exact hij
      · exact Nat.lt_trans hij (hj k hk)
    · split
      · rename_i hji
        refine List.pairwise_cons.2 ⟨fun k hk => ?_, ih hrest⟩
        rcases mem_insertAscending.1 hk with rfl | hk
        · exact hji
        · exact hj k hk
      · exact h

/-- The result of `ascending` is ascending. -/
theorem ascending_sorted (is : List Nat) : (ascending is).Pairwise (· < ·) := by
  induction is with
  | nil => exact List.Pairwise.nil
  | cons i rest ih => exact insertAscending_sorted ih

/-- The ascending list of the indices that stand in one or both of two ascending lists. -/
def mergeAscending : List Nat → List Nat → List Nat
  | [], js => js
  | i :: is, [] => i :: is
  | i :: is, j :: js =>
    if i < j then i :: mergeAscending is (j :: js)
    else if j < i then j :: mergeAscending (i :: is) js
    else i :: mergeAscending is js
termination_by is js => is.length + js.length

@[simp] theorem mem_mergeAscending {k : Nat} {is js : List Nat} :
    k ∈ mergeAscending is js ↔ k ∈ is ∨ k ∈ js := by
  fun_induction mergeAscending is js with
  | case1 js => simp
  | case2 i is => simp
  | case3 i is j js _ ih => simp [ih, or_assoc]
  | case4 i is j js _ _ ih =>
    simp only [List.mem_cons, ih]
    grind
  | case5 i is j js h h' ih =>
    have : i = j := by omega
    subst this
    simp only [List.mem_cons, ih]
    grind

/-- Merging keeps lists ascending. -/
theorem mergeAscending_sorted {is js : List Nat} (hi : is.Pairwise (· < ·))
    (hj : js.Pairwise (· < ·)) : (mergeAscending is js).Pairwise (· < ·) := by
  fun_induction mergeAscending is js with
  | case1 js => exact hj
  | case2 i is => exact hi
  | case3 i is j js h ih =>
    refine List.pairwise_cons.2 ⟨fun k hk => ?_, ih (List.pairwise_cons.1 hi).2 hj⟩
    rcases mem_mergeAscending.1 hk with hk | hk
    · exact (List.pairwise_cons.1 hi).1 k hk
    · rcases List.mem_cons.1 hk with rfl | hk
      · exact h
      · exact Nat.lt_trans h ((List.pairwise_cons.1 hj).1 k hk)
  | case4 i is j js _ h ih =>
    refine List.pairwise_cons.2 ⟨fun k hk => ?_, ih hi (List.pairwise_cons.1 hj).2⟩
    rcases mem_mergeAscending.1 hk with hk | hk
    · rcases List.mem_cons.1 hk with rfl | hk
      · exact h
      · exact Nat.lt_trans h ((List.pairwise_cons.1 hi).1 k hk)
    · exact (List.pairwise_cons.1 hj).1 k hk
  | case5 i is j js h h' ih =>
    have : i = j := by omega
    subst this
    refine List.pairwise_cons.2
      ⟨fun k hk => ?_, ih (List.pairwise_cons.1 hi).2 (List.pairwise_cons.1 hj).2⟩
    rcases mem_mergeAscending.1 hk with hk | hk
    · exact (List.pairwise_cons.1 hi).1 k hk
    · exact (List.pairwise_cons.1 hj).1 k hk

/-! ## Sets -/

/-- A set of indices below `size`. -/
structure DofSet where
  /-- The size of the index space. -/
  size : Nat
  /-- The indices in the set. -/
  elements : List Nat
  /-- The indices ascend. -/
  sorted : elements.Pairwise (· < ·)
  /-- Every index belongs to the index space. -/
  bounded : ∀ i ∈ elements, i < size
deriving DecidableEq

namespace DofSet

/-- The empty set. -/
def empty (size : Nat) : DofSet := ⟨size, [], .nil, by simp⟩

/-- The set of the indices in a list, in any order and with any repetition. -/
def ofList (size : Nat) (is : List Nat) : Except Violation DofSet :=
  if h : ∀ i ∈ is, i < size then
    .ok ⟨size, ascending is, ascending_sorted is, fun i hi => h i (mem_ascending.1 hi)⟩
  else
    .error (.indexOutside size)

/-- Indices of the index space are gathered into a set. -/
theorem ofList_ok {size : Nat} {is : List Nat} (h : ∀ i ∈ is, i < size) :
    ∃ s, ofList size is = .ok s ∧ s.size = size ∧ ∀ i, i ∈ s.elements ↔ i ∈ is := by
  rw [ofList, dif_pos h]
  exact ⟨_, rfl, rfl, fun i => mem_ascending⟩

/-- An index outside of the index space is refused. -/
theorem ofList_error {size : Nat} {is : List Nat} (h : ∃ i ∈ is, size ≤ i) :
    ofList size is = .error (.indexOutside size) := by
  obtain ⟨i, hi, hle⟩ := h
  exact dif_neg fun hall => Nat.not_lt_of_le hle (hall i hi)

/-- The set of the indices from `first` to `last`, where `last` does not belong to it. -/
def ofRange (size first last : Nat) : Except Violation DofSet :=
  ofList size (List.range' first (last - first))

/-- The number of indices in the set. -/
def count (s : DofSet) : Nat := s.elements.length

/-- Whether the set has no indices. -/
def isEmpty (s : DofSet) : Bool := s.elements.isEmpty

/-- The place of an index among the elements. -/
def position? (s : DofSet) (i : Nat) : Option Nat := s.elements.idxOf? i

/-- Whether an index is in the set. -/
def contains (s : DofSet) (i : Nat) : Bool := s.elements.contains i

instance : Membership Nat DofSet := ⟨fun s i => i ∈ s.elements⟩

@[simp] theorem mem_elements {s : DofSet} {i : Nat} : i ∈ s.elements ↔ i ∈ s := Iff.rfl

instance (s : DofSet) (i : Nat) : Decidable (i ∈ s) := inferInstanceAs (Decidable (i ∈ s.elements))

@[simp] theorem contains_iff {s : DofSet} {i : Nat} : s.contains i = true ↔ i ∈ s :=
  List.contains_iff_mem

/-- Whether every index of the first set is in the second. -/
def isSubset (s t : DofSet) : Bool := s.elements.all t.contains

@[simp] theorem isSubset_iff {s t : DofSet} : s.isSubset t = true ↔ ∀ i ∈ s, i ∈ t := by
  simp only [isSubset, List.all_eq_true, contains_iff]
  exact Iff.rfl

/-- The indices in one or both of two sets over the same index space. -/
def union (s t : DofSet) : Except Violation DofSet :=
  if h : s.size = t.size then
    .ok ⟨s.size, mergeAscending s.elements t.elements, mergeAscending_sorted s.sorted t.sorted,
      fun i hi => (mem_mergeAscending.1 hi).elim (s.bounded i) fun hi => h ▸ t.bounded i hi⟩
  else
    .error .differentSpaces

end DofSet

end DualHessian
