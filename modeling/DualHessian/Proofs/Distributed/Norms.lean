import DualHessian.Distributed.Matrix
import DualHessian.Proofs.Rank.Success

/-!
# Norms of a matrix that a group holds

The norms that a group computes, as functions of the parts that its ranks hold. No law of arithmetic
is used: a sum over ranks is added in the order of the ranks, and what a rank contributes to it in
the order of its entries.

* `GroupMatrix.frobenius`, `GroupMatrix.columnSum`, `GroupMatrix.columnNorm` and
  `GroupMatrix.rowNorm` are these functions.
* The lemmas `achieves_frobenius`, `achieves_columnNorm` and `achieves_rowNorm` say that all ranks
  obtain their values.
-/

namespace DualHessian

/-- The parts of a matrix that the ranks of a group hold. -/
abbrev GroupMatrix (α : Type) {n size : Nat} (p : Fin size → Partition n) :=
  (r : Fin size) → RowMatrix α (p r)

namespace GroupMatrix

variable {α : Type} [Arithmetic α] {n size : Nat} {p : Fin size → Partition n}

/-- The square root of the sum of the squares of all entries. -/
def frobenius [SquareRoot α] (A : GroupMatrix α p) : α :=
  sqrt (signedSumOf (List.ofFn fun r => signedSumOf ((A r).part.values.map fun x => x * x)))

variable [Magnitude α]

/-- The contribution of a rank to the sum of the magnitudes in a column. -/
def columnShare (A : GroupMatrix α p) (r : Fin size) (j : Nat) : α :=
  sumOf (((A r).part.entries.filter (·.column == j)).map fun e => Magnitude.abs e.value)

/-- The sum of the magnitudes in a column. -/
def columnSum (A : GroupMatrix α p) (j : Nat) : α := sumOf (List.ofFn fun r => A.columnShare r j)

/-- The largest sum of magnitudes in one of the first columns. -/
def columnNorm (A : GroupMatrix α p) (columns : Nat) : α :=
  largestOf ((List.range columns).map A.columnSum)

/-- The largest sum of magnitudes in a row. -/
def rowNorm (A : GroupMatrix α p) : α :=
  (List.ofFn fun r => largestOf (A r).rowSums).foldl Magnitude.larger Magnitude.lowest

end GroupMatrix

namespace Group

variable {α : Type} [Arithmetic α] {P : Interface} {n size : Nat} {p : Fin size → Partition n}
  {R : Replies P size}

theorem achieves_frobenius [SquareRoot α] (A : GroupMatrix α p) :
    Achieves R (fun b => b = fun _ => A.frobenius) fun r =>
      ((A r).frobenius : Task α P α) := by
  refine (achieves_sumOverRanks _).andThen _ ?_
  rintro _ rfl
  exact .pure rfl

variable [Magnitude α]

/-- All ranks obtain the largest sum of magnitudes in a column, if they agree on the number of
columns. -/
theorem achieves_columnNorm (A : GroupMatrix α p) {columns : Nat}
    (hcolumns : ∀ r, (A r).columns = columns) :
    Achieves R (fun b => b = fun _ => A.columnNorm columns) fun r =>
      ((A r).columnNorm : Task α P α) := by
  have hshares : ∀ r, (A r).columnShares = (List.range columns).map (A.columnShare r) := by
    intro r
    rw [RowMatrix.columnShares, hcolumns r]
    rfl
  -- The reduction adds the lists of all ranks, and so column by column.
  have hsums : sumLists columns (List.ofFn fun r => (A r).columnShares) =
      (List.range columns).map A.columnSum := by
    have := sumLists_map_range columns (List.ofFn fun r => A.columnShare r)
    simp only [List.map_ofFn, Function.comp_def] at this
    simp only [hshares, this]
    rfl
  have hlength : ∀ r, (A r).columnShares.length = columns := by
    intro r
    rw [hshares r, List.length_map, List.length_range]
  refine (achieves_sumComponents _ hlength).andThen _ ?_
  rintro _ rfl
  rw [hsums]
  exact .pure rfl

theorem achieves_rowNorm (A : GroupMatrix α p) :
    Achieves R (fun b => b = fun _ => A.rowNorm) fun r => ((A r).rowNorm : Task α P α) :=
  achieves_maxOverRanks _

end Group

end DualHessian
