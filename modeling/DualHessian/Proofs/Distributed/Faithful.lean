import DualHessian.Proofs.Distributed.Dense
import DualHessian.Proofs.Numbers.Doubles
import Mathlib.Algebra.Group.Pi.Basic

/-!
# Distributed matrices are dense matrices

The parts of a matrix that the ranks of a group hold stand for one dense matrix.

* `GroupMatrix.Faithful` says how: nothing is stored twice or outside of the own rows, all ranks
  gather the same dense matrix, and the owners of its rows read its entries.
* `GroupMatrix.faithful` says that the parts do so if the ranks agree on the number of columns.
* `GroupMatrix.dense_ofGlobal` says that the dense form of a matrix that every rank knows in full is
  the one that is gathered from the parts.
-/

namespace DualHessian

open Magnitude

variable {α : Type} [Arithmetic α] {n size : Nat} {p : Fin size → Partition n}

namespace GroupMatrix

/-- The ranks hold one dense matrix together. -/
structure Faithful [Magnitude α] (M : GroupMatrix α p) (columns : Nat) : Prop where
  /-- The ranks agree on the number of columns. -/
  columns_eq : ∀ r, (M r).columns = columns
  /-- A rank stores entries of its own rows only, in columns of the matrix. -/
  inside : ∀ r, ∀ e ∈ (M r).part.entries, e.row ∈ (p r).owned ∧ e.column < columns
  /-- It stores them row by row, the columns ascending, so each position once. -/
  ascending : ∀ r, (M r).part.entries.Pairwise Entry.Before
  /-- All ranks gather the same dense matrix. Its entries are read by the owners of their rows, and
  nothing else is read. -/
  gathered : ∃ entry : Nat → Nat → α,
    Group.Returns (fun r => ((M r).dense : Task α .closed (Dense α)).run)
      (fun _ => .ok (.tabulate n columns entry)) ∧
    ∀ r i j, (i ∈ (p r).owned ∧ j < columns →
        ∃ x, (M r).get? i j = some x ∧ SameNumber (entry i j) x) ∧
      (¬(i ∈ (p r).owned ∧ j < columns) → (M r).get? i j = none)

/-- All ranks gather the matrix whose entries are stored by the owners of the rows. -/
theorem returns_dense (hdivide : Partition.Divide p) {M : GroupMatrix α p} {columns : Nat}
    (hcolumns : ∀ r, (M r).columns = columns) {entry : Nat → Nat → α}
    (hentry : ∀ r, ∀ i ∈ (p r).owned, ∀ j < columns,
      sumOf ((M r).part.stored? i j).toList = entry i j) :
    Group.Returns (fun r => ((M r).dense : Task α .closed (Dense α)).run)
      (fun _ => .ok (.tabulate n columns entry)) := by
  have hreturns := (Group.achieves_dense M hcolumns).returns_ok
  rwa [Group.dense_eq hdivide M hentry] at hreturns

/-- Parts with the same number of columns are parts of one dense matrix. An entry is gathered by
adding it onto zero, which must not change it. -/
theorem faithful [Magnitude α] (hzero : ∀ x : α, SameNumber (0 + x) x)
    (hdivide : Partition.Divide p) {M : GroupMatrix α p} {columns : Nat}
    (hcolumns : ∀ r, (M r).columns = columns) : M.Faithful columns where
  columns_eq := hcolumns
  inside r e he := hcolumns r ▸ RowMatrix.mem_owned_of_mem_entries he
  ascending r := (M r).part.pairwise_entries
  gathered := by
    obtain ⟨entry, hentry⟩ :=
      hdivide.exists_joined fun r i j => sumOf ((M r).part.stored? i j).toList
    refine ⟨entry, returns_dense hdivide hcolumns fun r i hi j _ =>
      (congrFun (hentry r i hi) j).symm, fun r i j => ⟨fun h => ?_, fun h => ?_⟩⟩
    · refine ⟨_, RowMatrix.get?_eq_some_iff.2 ⟨(hcolumns r).symm ▸ h, rfl⟩, ?_⟩
      rw [congrFun (hentry r i h.1) j]
      cases (M r).part.stored? i j with
      | none => exact .refl 0
      | some x => exact hzero x
    · rw [RowMatrix.get?, hcolumns r, if_neg]
      simpa using h

omit [Arithmetic α] in
/-- The own rows of a matrix that every rank knows in full can be kept if it has the right number of
rows. -/
theorem exists_ofGlobal (p : Fin size → Partition n) {A : SparseMatrix α} (hrows : A.rows = n) :
    ∃ M : GroupMatrix α p, ∀ r, RowMatrix.ofGlobal (p r) A = .ok (M r) ∧
      (M r).part = A.restrict (p r).owns :=
  ⟨_, fun _ => ⟨dif_pos hrows, rfl⟩⟩

/-- All ranks gather the dense form of a matrix of which they keep their own rows. -/
theorem dense_ofGlobal (hdivide : Partition.Divide p) {A : SparseMatrix α} (hrows : A.rows = n)
    {M : GroupMatrix α p} (hM : ∀ r, (M r).part = A.restrict (p r).owns) :
    Group.Returns (fun r => ((M r).dense : Task α .closed (Dense α)).run)
      (fun _ => .ok (.ofEntries A.rows A.columns A.entries)) := by
  rw [Dense.ofEntries_eq, hrows]
  refine returns_dense hdivide (fun r => RowMatrix.columns_of_restrict (hM r)) fun r i hi j _ => ?_
  -- The owner keeps the whole row.
  rw [hM r, SparseMatrix.valuesAt_entries, SparseMatrix.stored?, SparseMatrix.lane_restrict,
    if_pos (Partition.owns_iff.2 hi)]
  rfl

end GroupMatrix

end DualHessian
