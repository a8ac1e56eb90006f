import DualHessian.Decimal.Double
import DualHessian.Sparse.Matrix

/-!
# Tables of numbers

A dense matrix is written as a table: one line per row, every entry aligned to the right in a column
of fixed width and followed by a blank. Zeros are written as `0`, other numbers in scientific
notation. The width of a column is a sum of machine words, and a column is a field of limited
length, so a matrix has a table only if the digits leave room for the sign and the exponent.
-/

namespace DualHessian

/-- What becomes of a sum of machine words that is larger than every word. -/
inductive Overflow where
  /-- The program stops. -/
  | stops
  /-- The carry is lost. -/
  | wraps
deriving DecidableEq, Repr

/-- The sum of two machine words. -/
def Overflow.add (overflow : Overflow) (a b : Nat) : Except Violation Nat :=
  if a + b < UInt64.size then .ok (a + b)
  else match overflow with
    | .stops => .error .sumTooLarge
    | .wraps => .ok ((a + b) % UInt64.size)

namespace Table

/-- The text of an entry. -/
def entry (digits : Nat) (x : Float) : List Char :=
  if x == 0 then ['0'] else Double.scientific digits x

/-- A text aligned to the right in a column; a text that does not fit is left as it is. -/
def alignRight (width : Nat) (text : List Char) : List Char :=
  List.replicate (width - text.length) ' ' ++ text

/-- An entry in its column, with the blank behind it. -/
def cell (width digits : Nat) (x : Float) : List Char :=
  alignRight width (entry digits x) ++ [' ']

/-- A line with the entries of a row. -/
def line (width digits : Nat) (row : List Float) : List Char :=
  row.flatMap (cell width digits) ++ ['\n']

/-- The lines of all rows. -/
def lines (width digits : Nat) (A : Dense Float) : List Char := A.rows.flatMap (line width digits)

/-- Whether an entry can be written: its column must not be wider than a field, nor may a number
have more fraction digits than that. -/
def fits (width digits : Nat) (x : Float) : Bool :=
  decide (width ≤ Double.longestField) && (x == 0 || decide (digits ≤ Double.longestField))

/-- The table of a matrix. A column has room for a sign, the leading digit, the point, the fraction
digits, and an exponent of two digits with its sign. -/
def text (overflow : Overflow) (digits : Nat) (A : Dense Float) : Except Violation String := do
  let width ← overflow.add 7 digits
  if A.rows.all (·.all (fits width digits)) then
    return String.ofList (lines width digits A)
  else throw .tooManyDigits

end Table

end DualHessian
