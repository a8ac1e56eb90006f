import DualHessian.System.Expression
import DualHessian.Text.Json

/-!
# Formulas as data

A formula is read from a number or from a list that starts with an operator. The operators `+`, `-`,
`*` and `/` take any number of operands and combine them from the first to the last; `w` and `psi`
name an entry of the state and of the dual.
-/

namespace DualHessian

namespace Expression

/-- Combines operands from the first to the last. -/
def chain? {α : Type} (combine : Expression α → Expression α → Expression α) :
    List (Expression α) → Option (Expression α)
  | [] => none
  | e :: es => some (es.foldl combine e)

/-- The formula of an operator with operands. -/
def operation? {α : Type} (operator : String) (operands : List (Expression α)) :
    Option (Expression α) :=
  match operator, operands with
  | "+", es => chain? sum es
  | "-", es => chain? difference es
  | "*", es => chain? product es
  | "/", es => chain? quotient es
  | "sqrt", [e] => some (root e)
  | _, _ => none

/-- The formula of an entry with an index. -/
def entry? {α : Type} (vector : String) (index : Json) : Option (Expression α) := do
  let .number n := index | none
  let i ← n.natural?
  match vector with
  | "w" => some (state i)
  | "psi" => some (dual i)
  | _ => none

mutual

/-- Reads a formula. -/
def ofJson? : Json → Option (Expression Float)
  | .list [.text (some "w"), index] => entry? "w" index
  | .list [.text (some "psi"), index] => entry? "psi" index
  | .list (.text (some operator) :: operands) => do operation? operator (← ofItems? operands)
  | value => value.extended?.map constant

/-- Reads formulas. -/
def ofItems? : List Json → Option (List (Expression Float))
  | [] => some []
  | item :: items => do return (← ofJson? item) :: (← ofItems? items)

end

end Expression

end DualHessian
