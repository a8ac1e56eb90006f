import DualHessian.Dofs.DofSet

/-!
# Sparsity patterns

A `Pattern` lists, for every row of a matrix, the columns in which something may be stored. An
`Occupancy` is the question that the assembly of a matrix asks of a pattern: its shape, and whether
a position belongs to it.
-/

namespace DualHessian

/-- Shape of a matrix and the positions at which it may differ from zero. -/
structure Occupancy where
  /-- The number of rows. -/
  rows : Nat
  /-- The number of columns. -/
  columns : Nat
  /-- Whether the position in a row and a column belongs to it. -/
  holds : Nat → Nat → Bool

/-- Every entry of the list is below all that follow it. -/
def Ascending (is : List Nat) : Prop := is.Pairwise (· < ·)

instance (is : List Nat) : Decidable (Ascending is) :=
  @List.instDecidablePairwise Nat (· < ·) Nat.decLt is

/-- For every row the ascending list of the columns that may be occupied. -/
structure Pattern where
  /-- The number of columns of the matrix. -/
  columns : Nat
  /-- The columns of every row. -/
  lanes : List (List Nat)
  /-- The columns of a row ascend. -/
  sorted : ∀ lane ∈ lanes, lane.Pairwise (· < ·)
  /-- Every column belongs to the matrix. -/
  bounded : ∀ lane ∈ lanes, ∀ j ∈ lane, j < columns
deriving DecidableEq

namespace Pattern

/-- The number of rows. -/
def rows (p : Pattern) : Nat := p.lanes.length

/-- The columns of one row; none beyond the last row. -/
def lane (p : Pattern) (i : Nat) : List Nat := p.lanes.getD i []

/-- A pattern given by the columns of every row, if they ascend and belong to the matrix. -/
def ofLanes? (columns : Nat) (lanes : List (List Nat)) : Option Pattern :=
  if h : (∀ lane ∈ lanes, Ascending lane) ∧ ∀ lane ∈ lanes, ∀ j ∈ lane, j < columns then
    some ⟨columns, lanes, h.1, h.2⟩
  else
    none

/-- The square pattern of the positions at most `width` away from the diagonal. -/
def banded (n width : Nat) : Pattern where
  columns := n
  lanes := (List.range n).map fun i =>
    List.range' (i - width) (min (i + width + 1) n - (i - width))
  sorted := by
    intro lane h
    obtain ⟨i, _, rfl⟩ := List.mem_map.1 h
    exact List.pairwise_lt_range'
  bounded := by
    intro lane h j hj
    obtain ⟨i, hi, rfl⟩ := List.mem_map.1 h
    have := List.mem_range.1 hi
    have := List.mem_range'_1.1 hj
    omega

/-- Whether a position belongs to the pattern. -/
def contains (p : Pattern) (i j : Nat) : Bool := (p.lane i).contains j

/-- A position belongs to the pattern if its column is listed for its row. -/
theorem contains_iff {p : Pattern} {i j : Nat} : p.contains i j = true ↔ j ∈ p.lane i :=
  List.contains_iff_mem

/-- The columns of a row, if there are any, are those of a listed row. -/
theorem lane_mem {p : Pattern} {i : Nat} (h : i < p.rows) : p.lane i ∈ p.lanes := by
  have h' : i < p.lanes.length := h
  simp [lane, List.getD_eq_getElem?_getD, h', List.getElem_mem]

/-- The shape and the positions of the pattern. -/
def occupancy (p : Pattern) : Occupancy := ⟨p.rows, p.columns, p.contains⟩

/-- The pattern without the rows that `keep` refuses; those are left empty. -/
def restrict (p : Pattern) (keep : Nat → Bool) : Pattern where
  columns := p.columns
  lanes := p.lanes.mapIdx fun i lane => if keep i then lane else []
  sorted := by
    intro lane h
    obtain ⟨i, hi, rfl⟩ := List.mem_mapIdx.1 h
    split
    · exact p.sorted _ (List.getElem_mem hi)
    · exact List.Pairwise.nil
  bounded := by
    intro lane h j hj
    obtain ⟨i, hi, rfl⟩ := List.mem_mapIdx.1 h
    split at hj
    · exact p.bounded _ (List.getElem_mem hi) j hj
    · cases hj

@[simp] theorem rows_restrict (p : Pattern) (keep : Nat → Bool) :
    (p.restrict keep).rows = p.rows := by
  simp [rows, restrict]

@[simp] theorem columns_restrict (p : Pattern) (keep : Nat → Bool) :
    (p.restrict keep).columns = p.columns := rfl

/-- A kept row is unchanged, any other is empty. -/
theorem lane_restrict (p : Pattern) (keep : Nat → Bool) (i : Nat) :
    (p.restrict keep).lane i = if keep i then p.lane i else [] := by
  by_cases h : i < p.lanes.length
  · simp [lane, restrict, List.getD_eq_getElem?_getD, h]
  · have h' : p.lanes.length ≤ i := Nat.le_of_not_lt h
    simp [lane, restrict, List.getD_eq_getElem?_getD, h']

/-- The positions of the kept rows belong to the restricted pattern. -/
theorem contains_restrict {p : Pattern} {keep : Nat → Bool} {i j : Nat} :
    (p.restrict keep).contains i j = true ↔ keep i = true ∧ p.contains i j = true := by
  rw [contains_iff, contains_iff, lane_restrict]
  split <;> simp [*]

end Pattern

end DualHessian
