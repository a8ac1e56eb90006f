import DualHessian.Arithmetic
import DualHessian.Sparse.Entry
import DualHessian.Sparse.Pattern

/-!
# Sparse matrices

A `SparseMatrix` stores some entries of every row, the columns ascending, each column at most once.
An entry that is not stored is zero; a stored entry may be zero too.

* `SparseMatrix.ofEntries` collects entries given in any order. Entries at the same position are
  added in the order in which they are given.
* `SparseMatrix.stored?` is the value stored at a position.
* `Dense` is a matrix with all its entries.
-/

namespace DualHessian

variable {α : Type}

/-! ## Rows -/

/-- The ascending order of columns in a row. -/
def LaneSorted (lane : List (Nat × α)) : Prop := lane.Pairwise fun a b => a.1 < b.1

/-- Adds a value to the entry of a row in a column, behind what is there. -/
def addInto [Add α] (column : Nat) (value : α) : List (Nat × α) → List (Nat × α)
  | [] => [(column, value)]
  | (j, x) :: rest =>
    if column < j then (column, value) :: (j, x) :: rest
    else if j < column then (j, x) :: addInto column value rest
    else (j, x + value) :: rest

/-- The columns after an addition are those before and the new one. -/
theorem mem_columns_addInto [Add α] {column j : Nat} {value : α} {lane : List (Nat × α)} :
    j ∈ (addInto column value lane).map (·.1) ↔ j = column ∨ j ∈ lane.map (·.1) := by
  induction lane with
  | nil => simp [addInto]
  | cons e rest ih =>
    obtain ⟨k, x⟩ := e
    simp only [addInto]
    split
    · simp
    · split
      · simp only [List.map_cons, List.mem_cons, ih]
        grind
      · have : column = k := by omega
        subst this
        simp

/-- Addition keeps the columns ascending. -/
theorem addInto_sorted [Add α] {column : Nat} {value : α} {lane : List (Nat × α)}
    (h : LaneSorted lane) : LaneSorted (addInto column value lane) := by
  induction lane with
  | nil => simp [addInto, LaneSorted]
  | cons e rest ih =>
    obtain ⟨k, x⟩ := e
    obtain ⟨hk, hrest⟩ := List.pairwise_cons.1 h
    simp only [addInto]
    split
    · rename_i hlt
      refine List.pairwise_cons.2 ⟨fun b hb => ?_, h⟩
      rcases List.mem_cons.1 hb with rfl | hb
      · exact hlt
      · exact Nat.lt_trans hlt (hk b hb)
    · split
      · rename_i hlt
        refine List.pairwise_cons.2 ⟨fun b hb => ?_, ih hrest⟩
        rcases mem_columns_addInto.1 (List.mem_map.2 ⟨b, hb, rfl⟩) with hb | hb
        · exact hb ▸ hlt
        · obtain ⟨c, hc, hcb⟩ := List.mem_map.1 hb
          exact hcb ▸ hk c hc
      · exact List.pairwise_cons.2 ⟨hk, hrest⟩

/-- The row made of the given values, added in order. -/
def collect [Add α] (values : List (Nat × α)) : List (Nat × α) :=
  values.foldl (fun lane e => addInto e.1 e.2 lane) []

private theorem foldl_addInto_sorted [Add α] {values lane : List (Nat × α)} (h : LaneSorted lane) :
    LaneSorted (values.foldl (fun lane e => addInto e.1 e.2 lane) lane) := by
  induction values generalizing lane with
  | nil => exact h
  | cons e rest ih => exact ih (addInto_sorted h)

private theorem mem_columns_foldl_addInto [Add α] {j : Nat} {values lane : List (Nat × α)} :
    j ∈ (values.foldl (fun lane e => addInto e.1 e.2 lane) lane).map (·.1) ↔
      j ∈ values.map (·.1) ∨ j ∈ lane.map (·.1) := by
  induction values generalizing lane with
  | nil => simp
  | cons e rest ih =>
    rw [List.foldl_cons, ih, mem_columns_addInto]
    simp only [List.map_cons, List.mem_cons]
    grind

/-- The columns of a collected row ascend. -/
theorem collect_sorted [Add α] (values : List (Nat × α)) : LaneSorted (collect values) :=
  foldl_addInto_sorted .nil

/-- The columns of a collected row are those of the values. -/
theorem mem_columns_collect [Add α] {j : Nat} {values : List (Nat × α)} :
    j ∈ (collect values).map (·.1) ↔ j ∈ values.map (·.1) := by
  simp [collect, mem_columns_foldl_addInto]

/-- A row collected from nothing is empty. -/
@[simp] theorem collect_nil [Add α] : collect ([] : List (Nat × α)) = [] := rfl

/-! ## Matrices -/

/-- A matrix of which only some entries are stored. -/
structure SparseMatrix (α : Type) where
  /-- The number of columns. -/
  columns : Nat
  /-- For every row the stored entries with their columns. -/
  lanes : List (List (Nat × α))
  /-- The columns of a row ascend. -/
  sorted : ∀ lane ∈ lanes, LaneSorted lane
  /-- Every column belongs to the matrix. -/
  bounded : ∀ lane ∈ lanes, ∀ e ∈ lane, e.1 < columns

/-- A matrix of which all entries are stored, row by row. -/
structure Dense (α : Type) where
  /-- The number of columns. -/
  columns : Nat
  /-- The rows. -/
  rows : List (List α)
deriving DecidableEq, Repr

namespace SparseMatrix

/-- The number of rows. -/
def rows (A : SparseMatrix α) : Nat := A.lanes.length

/-- The stored entries of one row; none beyond the last row. -/
def lane (A : SparseMatrix α) (i : Nat) : List (Nat × α) := A.lanes.getD i []

/-- The value stored at a position. -/
def stored? (A : SparseMatrix α) (i j : Nat) : Option α := (A.lane i).lookup j

/-- All stored entries, row by row, the columns ascending. -/
def entries (A : SparseMatrix α) : List (Entry α) :=
  A.lanes.zipIdx.flatMap fun (lane, i) => lane.map fun e => ⟨i, e.1, e.2⟩

/-- The stored values, row by row, the columns ascending. -/
def values (A : SparseMatrix α) : List α := A.lanes.flatMap fun lane => lane.map (·.2)

/-- The number of stored entries. -/
def count (A : SparseMatrix α) : Nat := A.values.length

/-- The positions at which something is stored. -/
def pattern (A : SparseMatrix α) : Pattern where
  columns := A.columns
  lanes := A.lanes.map fun lane => lane.map (·.1)
  sorted := by
    intro lane h
    obtain ⟨lane', h', rfl⟩ := List.mem_map.1 h
    exact List.pairwise_map.2 (A.sorted _ h')
  bounded := by
    intro lane h j hj
    obtain ⟨lane', h', rfl⟩ := List.mem_map.1 h
    obtain ⟨e, he, rfl⟩ := List.mem_map.1 hj
    exact A.bounded _ h' e he

/-- The matrix in which nothing is stored. -/
def zeros (rows columns : Nat) : SparseMatrix α where
  columns := columns
  lanes := List.replicate rows []
  sorted := by
    intro lane h
    rw [(List.mem_replicate.1 h).2]
    exact .nil
  bounded := by
    intro lane h e he
    rw [(List.mem_replicate.1 h).2] at he
    cases he

@[simp] theorem rows_zeros (rows columns : Nat) :
    (zeros rows columns : SparseMatrix α).rows = rows :=
  List.length_replicate

@[simp] theorem columns_zeros (rows columns : Nat) :
    (zeros rows columns : SparseMatrix α).columns = columns := rfl

@[simp] theorem lane_zeros (rows columns i : Nat) :
    (zeros rows columns : SparseMatrix α).lane i = [] := by
  by_cases h : i < rows
  · simp [lane, zeros, List.getD_eq_getElem?_getD, h]
  · simp [lane, zeros, List.getD_eq_getElem?_getD, Nat.le_of_not_lt h]

/-- What the entries contribute to one row of a matrix with the given number of columns. -/
def laneOf [Add α] (columns : Nat) (entries : List (Entry α)) (i : Nat) : List (Nat × α) :=
  collect ((entries.filter fun e => e.row == i && decide (e.column < columns)).map
    fun e => (e.column, e.value))

/-- The matrix made of entries in any order. Values at the same position are added, from the first
to the last. Entries outside the matrix are left out.

This is the documented conversion from coordinates to rows of the sparse matrix library. -/
def ofEntries [Add α] (rows columns : Nat) (entries : List (Entry α)) : SparseMatrix α where
  columns := columns
  lanes := (List.range rows).map (laneOf columns entries)
  sorted := by
    intro lane h
    obtain ⟨i, _, rfl⟩ := List.mem_map.1 h
    exact collect_sorted _
  bounded := by
    intro lane h e he
    obtain ⟨i, _, rfl⟩ := List.mem_map.1 h
    have hcol := mem_columns_collect.1 (List.mem_map.2 ⟨e, he, rfl⟩)
    simp only [List.map_map, List.mem_map, List.mem_filter, Bool.and_eq_true, decide_eq_true_eq]
      at hcol
    obtain ⟨e', ⟨_, _, h'⟩, he'⟩ := hcol
    exact he' ▸ h'

@[simp] theorem rows_ofEntries [Add α] (rows columns : Nat) (entries : List (Entry α)) :
    (ofEntries rows columns entries).rows = rows := by
  simp [SparseMatrix.rows, ofEntries]

@[simp] theorem columns_ofEntries [Add α] (rows columns : Nat) (entries : List (Entry α)) :
    (ofEntries rows columns entries).columns = columns := rfl

/-- The rows of a collected matrix. -/
theorem lane_ofEntries [Add α] (rows columns : Nat) (entries : List (Entry α)) (i : Nat) :
    (ofEntries rows columns entries).lane i =
      if i < rows then laneOf columns entries i else [] := by
  by_cases h : i < rows
  · simp [lane, ofEntries, List.getD_eq_getElem?_getD, h]
  · simp [lane, ofEntries, List.getD_eq_getElem?_getD, h]

/-- A row to which no entry belongs is empty. -/
theorem laneOf_eq_nil [Add α] {columns : Nat} {entries : List (Entry α)} {i : Nat}
    (h : ∀ e ∈ entries, e.row ≠ i) : laneOf columns entries i = [] := by
  have : (entries.filter fun e => e.row == i && decide (e.column < columns)) = [] := by
    apply List.filter_eq_nil_iff.2
    intro e he
    simp [h e he]
  simp [laneOf, this]

/-- The matrix made of entries in any order, if they all belong to it. -/
def ofEntries? [Add α] (rows columns : Nat) (entries : List (Entry α)) :
    Except Violation (SparseMatrix α) :=
  if entries.all (Entry.isInside rows columns) then .ok (ofEntries rows columns entries)
  else .error .noSuchEntry

/-- The matrix without the rows that `keep` refuses; those are left empty. -/
def restrict (A : SparseMatrix α) (keep : Nat → Bool) : SparseMatrix α where
  columns := A.columns
  lanes := A.lanes.mapIdx fun i lane => if keep i then lane else []
  sorted := by
    intro lane h
    obtain ⟨i, hi, rfl⟩ := List.mem_mapIdx.1 h
    split
    · exact A.sorted _ (List.getElem_mem hi)
    · exact .nil
  bounded := by
    intro lane h e he
    obtain ⟨i, hi, rfl⟩ := List.mem_mapIdx.1 h
    split at he
    · exact A.bounded _ (List.getElem_mem hi) e he
    · cases he

@[simp] theorem rows_restrict (A : SparseMatrix α) (keep : Nat → Bool) :
    (A.restrict keep).rows = A.rows := by
  simp [rows, restrict]

@[simp] theorem columns_restrict (A : SparseMatrix α) (keep : Nat → Bool) :
    (A.restrict keep).columns = A.columns := rfl

/-- A kept row is unchanged, any other is empty. -/
theorem lane_restrict (A : SparseMatrix α) (keep : Nat → Bool) (i : Nat) :
    (A.restrict keep).lane i = if keep i then A.lane i else [] := by
  by_cases h : i < A.lanes.length
  · simp [lane, restrict, List.getD_eq_getElem?_getD, h]
  · simp [lane, restrict, List.getD_eq_getElem?_getD, Nat.le_of_not_lt h]

/-- Whether two matrices store the same values at the same positions. -/
def same [Magnitude α] (A B : SparseMatrix α) : Bool :=
  A.columns == B.columns && A.pattern.lanes == B.pattern.lanes &&
    (A.values.zip B.values).all fun (a, b) => Magnitude.same a b

end SparseMatrix

namespace Dense

/-- The matrix with zeros everywhere but at the given entries; values at the same position are
added, from the first to the last. -/
def ofEntries [Arithmetic α] (rows columns : Nat) (entries : List (Entry α)) : Dense α where
  columns := columns
  rows := (List.range rows).map fun i =>
    let lane := entries.filter (·.row == i)
    (List.range columns).map fun j =>
      sumOf ((lane.filter (·.column == j)).map (·.value))

/-- The entries of a matrix that are not zero, stored sparsely. -/
def toSparse [Arithmetic α] [Magnitude α] (A : Dense α) : SparseMatrix α :=
  .ofEntries A.rows.length A.columns <|
    A.rows.zipIdx.flatMap fun (row, i) =>
      (row.zipIdx.filter fun (x, _) => !Magnitude.same x 0).map fun (x, j) => ⟨i, j, x⟩

end Dense

end DualHessian
