import DualHessian.Decimal.Scientific
import DualHessian.Failure

/-!
# The decimal text of a double

A double that is not zero and is finite is `± m · 2 ^ e`. Its text has either the fewest digits that
read back to the same double (`Double.shortest`), or a given number of fraction digits, rounded from
the exact value (`Double.rounded`). Values that are not finite are written as words.
-/

namespace DualHessian

open Float.Model

/-- The positive number `m · 2 ^ e` as a fraction. -/
def dyadic (m : Nat) (e : Int) : Nat × Nat := (m * Nat.pow 2 e.toNat, Nat.pow 2 (-e).toNat)

namespace Double

/-- The number with `places` fraction digits nearest to `m · 2 ^ e`. -/
def rounded (places m : Nat) (e : Int) : Scientific :=
  let x := dyadic m e
  Scientific.round places x.1 x.2

/-- The number with the fewest digits that rounds to the double `m · 2 ^ e`. The numbers that do so
lie between the midpoints to the two neighbours, which belong to an even `m`. Below a power of two
the neighbour is twice as close. -/
def shortest (m : Nat) (e : Int) : Scientific :=
  let x := dyadic (4 * m) (e - 2)
  let unit := Nat.pow 2 (e - 2).toNat
  let gap := if m = Nat.pow 2 52 ∧ -1074 < e then 1 else 2
  Scientific.within (x.1 - gap * unit) x.1 (x.1 + 2 * unit) x.2 (m % 2 == 0)

/-- A minus sign for negative numbers. -/
def signText : UnpackedFloat.Sign → List Char
  | .negative => ['-']
  | .positive => []

/-- The text of a double, where `digits` chooses the digits of a positive finite one and `zero` is
the text of either zero. -/
def text (style : ExponentStyle) (zero : UnpackedFloat.Sign → List Char)
    (digits : Nat → Int → Scientific) (x : Float) : List Char :=
  match x.toModel.unpack with
  | .notANumber => ['N', 'a', 'N']
  | .infinity s => signText s ++ ['i', 'n', 'f']
  | .zero s => zero s
  | .finite s m e _ => signText s ++ (digits m e).text style

/-- The text of both zeros, without a sign. -/
def unsignedZero (_ : UnpackedFloat.Sign) : List Char := (Scientific.zero 0).text .plain

/-- The text of a zero with its sign. -/
def signedZero (places : Nat) (s : UnpackedFloat.Sign) : List Char :=
  signText s ++ (Scientific.zero places).text .plain

/-- The shortest text that reads back: `1e0`, `-2.5e-3`. Both zeros are written alike. -/
def shortestText (x : Float) : String :=
  String.ofList (text .plain unsignedZero shortest x)

/-- The text with a fixed number of fraction digits and the exponent as it is: `-1.25000e-3`. -/
def fixed (places : Nat) (x : Float) : List Char :=
  text .plain (signedZero places) (rounded places) x

/-- The characters of `scientificText`. -/
def scientific (places : Nat) (x : Float) : List Char :=
  ExponentStyle.signed.rewrite (fixed places x)

/-- The limit of a field: a number has at most this many fraction digits, and a column is at most
this wide. -/
def longestField : Nat := 65535

/-- The text with a fixed number of fraction digits, and an exponent of at least two digits that
always carries a sign: `-1.25000e-03`. The limit on the digits holds for every number, also for one
that is written as a word. -/
def scientificText (places : Nat) (x : Float) : Except Violation String :=
  if places ≤ longestField then .ok (String.ofList (scientific places x))
  else .error .tooManyDigits

end Double

end DualHessian
