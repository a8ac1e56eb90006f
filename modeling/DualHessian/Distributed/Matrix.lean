import DualHessian.Dofs.Partition
import DualHessian.Rank.Collective
import DualHessian.Sparse.Matrix

/-!
# Matrices distributed by rows

A `RowMatrix α p` is the part of a global matrix that a rank with partition `p` holds: the rows that
it owns, embedded in a matrix of global shape. `Deposits` collects entries for such a matrix; any
rank may deposit into any row, and `Deposits.toMatrix` brings each entry to the owner of its row.

The norms of the global matrix (`frobenius`, `columnNorm`, `rowNorm`) and its dense form (`dense`)
are collective operations; all ranks obtain the same result.
-/

namespace DualHessian

/-- The owned rows of a global matrix with one row per degree of freedom. -/
structure RowMatrix (α : Type) {n : Nat} (p : Partition n) where
  /-- The stored entries. -/
  part : SparseMatrix α
  /-- The matrix has the global number of rows. -/
  rows_part : part.rows = n
  /-- Nothing is stored in rows that belong to other ranks. -/
  lane_part : ∀ i, i ∉ p.owned → part.lane i = []

namespace RowMatrix

variable {α : Type} {n m : Nat} {p : Partition n} {q : Partition m}

/-- The number of columns. -/
def columns (A : RowMatrix α p) : Nat := A.part.columns

/-- The shape of the global matrix. -/
def shape (A : RowMatrix α p) : Nat × Nat := (n, A.columns)

/-- The matrix in which nothing is stored. -/
def zeros (p : Partition n) (columns : Nat) : RowMatrix α p where
  part := .zeros n columns
  rows_part := SparseMatrix.rows_zeros n columns
  lane_part i _ := SparseMatrix.lane_zeros n columns i

/-- The owned rows of a matrix that every rank knows in full. -/
def ofGlobal (p : Partition n) (A : SparseMatrix α) : Except MatrixConflict (RowMatrix α p) :=
  if h : A.rows = n then
    .ok {
      part := A.restrict p.owns
      rows_part := (A.rows_restrict p.owns).trans h
      lane_part := fun i hi => by
        rw [SparseMatrix.lane_restrict, if_neg (by simpa using hi)] }
  else
    .error (.shape (n, A.columns) (A.rows, A.columns))

/-- The matrix made of entries that belong to owned rows; others are left out. -/
def ofEntries [Add α] (p : Partition n) (columns : Nat) (entries : List (Entry α)) :
    RowMatrix α p where
  part := .ofEntries n columns (entries.filter fun e => p.owns e.row)
  rows_part := SparseMatrix.rows_ofEntries ..
  lane_part i hi := by
    rw [SparseMatrix.lane_ofEntries]
    split
    · apply SparseMatrix.laneOf_eq_nil
      intro e he
      have := Partition.owns_iff.1 (List.mem_filter.1 he).2
      exact fun h => hi (h ▸ this)
    · rfl

/-- The number of entries stored on this rank. -/
def count (A : RowMatrix α p) : Nat := A.part.count

/-- The entry at a position, if this rank owns the row and the column belongs to the matrix. -/
def get? [Zero α] (A : RowMatrix α p) (i j : Nat) : Option α :=
  if p.owns i && decide (j < A.columns) then some ((A.part.stored? i j).getD 0) else none

/-- Adds a multiple of another matrix of the same shape and distribution. The result stores what
either of them stores. -/
def addMultiple [Add α] [Mul α] (A : RowMatrix α p) (factor : α) (B : RowMatrix α q) :
    Except MatrixConflict (RowMatrix α p) :=
  if A.shape = B.shape then
    if p.agrees q then
      .ok (ofEntries p A.columns
        (A.part.entries ++ B.part.entries.map (Entry.map (factor * ·))))
    else .error .partition
  else .error (.shape A.shape B.shape)

/-- Whether two matrices are distributed in the same way and store the same numbers. -/
def same [Magnitude α] (A : RowMatrix α p) (B : RowMatrix α q) : Bool :=
  p.agrees q && A.part.same B.part

section Collective

variable [Arithmetic α] {P : Interface}

/-- The square root of the sum of the squares of all entries. -/
def frobenius [SquareRoot α] (A : RowMatrix α p) : Task α P α := do
  let total ← sumOverRanks (signedSumOf (A.part.values.map fun x => x * x))
  return sqrt total

/-- This rank's share of the sums of the magnitudes in each column. -/
def columnShares [Magnitude α] (A : RowMatrix α p) : List α :=
  (List.range A.columns).map fun j =>
    sumOf ((A.part.entries.filter (·.column == j)).map fun e => Magnitude.abs e.value)

/-- The largest sum of magnitudes in a column. -/
def columnNorm [Magnitude α] (A : RowMatrix α p) : Task α P α := do
  let sums ← sumComponents A.columnShares
  return largestOf sums

/-- The sums of the magnitudes in each row. -/
def rowSums [Magnitude α] (A : RowMatrix α p) : List α :=
  A.part.lanes.map fun lane => signedSumOf (lane.map fun e => Magnitude.abs e.2)

/-- The largest sum of magnitudes in a row. -/
def rowNorm [Magnitude α] (A : RowMatrix α p) : Task α P α :=
  maxOverRanks (largestOf A.rowSums)

/-- The global matrix with all its entries, made of what all ranks store. It has to belong to the
matrix, as it does if the ranks agree on the shape. -/
def dense (A : RowMatrix α p) : Task α P (Dense α) := do
  let parts ← gatherAll .entries A.part.entries
  if parts.flatten.all (Entry.isInside n A.columns) then
    return .ofEntries n A.columns parts.flatten
  else
    throw (.violated .noSuchEntry)

end Collective

end RowMatrix

/-- Entries deposited by one rank for a matrix under construction. -/
structure Deposits (α : Type) {n : Nat} (p : Partition n) where
  /-- The number of columns. -/
  columns : Nat
  /-- The entries in the order in which they were deposited. -/
  entries : List (Entry α)
  /-- The entries belong to the matrix. -/
  bounded : ∀ e ∈ entries, e.row < n ∧ e.column < columns

namespace Deposits

variable {α : Type} {n : Nat} {p : Partition n}

/-- No deposits. -/
def empty (p : Partition n) (columns : Nat) : Deposits α p := ⟨columns, [], by simp⟩

/-- Deposits one more entry. -/
def add (d : Deposits α p) (e : Entry α) : Except Violation (Deposits α p) :=
  if h : e.row < n ∧ e.column < d.columns then
    .ok ⟨d.columns, d.entries ++ [e], fun e' he' => by
      rcases List.mem_append.1 he' with he' | he'
      · exact d.bounded e' he'
      · exact List.mem_singleton.1 he' ▸ h⟩
  else
    .error (.entryOutside e.row e.column)

/-- The number of entries deposited by this rank. -/
def count (d : Deposits α p) : Nat := d.entries.length

/-- The matrix made of the deposits of all ranks. Each rank starts with what it deposited into its
own rows and adds what was sent to it, from the first rank to the last. What is sent to it has to
belong to the matrix, as it does if the ranks agree on the number of columns. -/
def toMatrix [Add α] {P : Interface} (d : Deposits α p) : Task α P (RowMatrix α p) := do
  let (kept, sent) := d.entries.partition fun e => p.owns e.row
  let parts ← gatherAll .entries sent
  let received := parts.flatten.filter fun e => p.owns e.row
  if received.all (Entry.isInside n d.columns) then
    return .ofEntries p d.columns (kept ++ received)
  else
    throw (.violated .noSuchEntry)

end Deposits

end DualHessian
