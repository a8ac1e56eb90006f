/-!
# Entries of a matrix

An `Entry` is a value together with its position in a matrix.
-/

namespace DualHessian

/-- A value at a position of a matrix. -/
structure Entry (α : Type) where
  /-- The row of the entry. -/
  row : Nat
  /-- The column of the entry. -/
  column : Nat
  /-- The value of the entry. -/
  value : α
deriving DecidableEq, Repr

namespace Entry

/-- Whether the entry stands at the position. -/
def isAt {α : Type} (row column : Nat) (e : Entry α) : Bool := e.row == row && e.column == column

/-- Whether the position belongs to a matrix of the given shape. -/
def isInside {α : Type} (rows columns : Nat) (e : Entry α) : Bool :=
  decide (e.row < rows) && decide (e.column < columns)

/-- The same position with the value changed. -/
def map {α β : Type} (f : α → β) (e : Entry α) : Entry β := ⟨e.row, e.column, f e.value⟩

end Entry

end DualHessian
