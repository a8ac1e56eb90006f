import DualHessian.Arithmetic
import DualHessian.Failure

/-!
# Expressions in a state and a dual

An `Expression` is a formula in the entries of a state and of a dual vector. `Expression.eval` is
its value; a formula that names an entry which does not exist has none.
-/

namespace DualHessian

/-- A formula in the entries of a state and of a dual. -/
inductive Expression (α : Type) where
  /-- A fixed number. -/
  | constant (value : α)
  /-- An entry of the state. -/
  | state (index : Nat)
  /-- An entry of the dual. -/
  | dual (index : Nat)
  /-- A sum. -/
  | sum (left right : Expression α)
  /-- A difference. -/
  | difference (left right : Expression α)
  /-- A product. -/
  | product (left right : Expression α)
  /-- A quotient. -/
  | quotient (left right : Expression α)
  /-- A square root. -/
  | root (radicand : Expression α)

namespace Expression

variable {α : Type} [Arithmetic α] [SquareRoot α]

/-- The entry of a vector at an index, if there is one. -/
def entryOf (xs : List α) (i : Nat) : Except Violation α :=
  match xs[i]? with
  | some x => .ok x
  | none => .error .noSuchEntry

/-- The value of a formula at a state and a dual. -/
def eval (state dual : List α) : Expression α → Except Violation α
  | constant value => .ok value
  | .state i => entryOf state i
  | .dual i => entryOf dual i
  | sum a b => return (← a.eval state dual) + (← b.eval state dual)
  | difference a b => return (← a.eval state dual) - (← b.eval state dual)
  | product a b => return (← a.eval state dual) * (← b.eval state dual)
  | quotient a b => return (← a.eval state dual) / (← b.eval state dual)
  | root a => return sqrt (← a.eval state dual)

/-- The values of formulas, as the first entries of a vector that is zero behind them. There must
not be more formulas than entries. -/
def evalRows (n : Nat) (state dual : List α) (rows : List (Expression α)) :
    Except Violation (Vector α n) := do
  let values ← rows.mapM (eval state dual)
  if rows.length ≤ n then
    return .ofFn fun i => values.getD i 0
  else
    throw .noSuchEntry

end Expression

end DualHessian
