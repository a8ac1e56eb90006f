import DualHessian.Decimal.Digits

/-!
# Scientific notation

A positive fraction `num / den` is written as a leading digit, some fraction digits and a power of
ten. This module finds the digits, in exact integer arithmetic, and writes them.

* `decade num den` is the power of ten of the leading digit.
* `Scientific.round` gives the nearest value with a fixed number of fraction digits; a tie goes to
  the even neighbour.
* `Scientific.within` gives the value with the fewest digits that lies in an interval around the
  fraction, the nearest one if there are two.
* `ExponentStyle` says how the power of ten is written, `Scientific.text` writes it all.
* `ExponentStyle.rewrite` writes the power of ten of a text anew.
-/

namespace DualHessian

/-- The nearest integer to `num / den`; a tie goes to the even neighbour. -/
def nearestEven (num den : Nat) : Nat :=
  let below := num / den
  let rest := 2 * (num % den)
  if rest < den ∨ (rest = den ∧ below % 2 = 0) then below else below + 1

/-- The nearest integer is the quotient rounded down, or its successor. -/
theorem nearestEven_eq (num den : Nat) :
    nearestEven num den = num / den ∨ nearestEven num den = num / den + 1 := by
  simp only [nearestEven]
  split
  · exact Or.inl rfl
  · exact Or.inr rfl

/-- The number of decimal digits of `n`; zero has one. -/
def decimalLength (n : Nat) : Nat := (decimalDigits n).length

/-- The power of ten of the leading digit of the positive fraction `num / den`. -/
def decade (num den : Nat) : Int :=
  if den ≤ num then
    (decimalLength (num / den) : Int) - 1
  else
    -- The fraction is below one; only an exact power of ten lies at the end of its decade.
    let k := decimalLength (den / num)
    if num * Nat.pow 10 (k - 1) = den then 1 - (k : Int) else -(k : Int)

/-- Both sides of the fraction `num / den` after dividing it by `10 ^ e`. -/
def scaleDown (num den : Nat) (e : Int) : Nat × Nat :=
  (num * Nat.pow 10 (-e).toNat, den * Nat.pow 10 e.toNat)

/-- A number `d.ddd × 10 ^ exponent` with `places` digits after the point. -/
structure Scientific where
  /-- The digits without the point, as one integer. -/
  digits : Nat
  /-- How many of the digits stand after the point. -/
  places : Nat
  /-- The power of ten. -/
  exponent : Int
deriving DecidableEq, Repr

namespace Scientific

/-- The number zero. -/
def zero (places : Nat) : Scientific := ⟨0, places, 0⟩

/-- Digits counted in units of `10 ^ (exponent - places)`, where rounding up may have carried into
one digit more. -/
def carried (digits places : Nat) (exponent : Int) : Scientific :=
  if digits = Nat.pow 10 (places + 1) then ⟨Nat.pow 10 places, places, exponent + 1⟩
  else ⟨digits, places, exponent⟩

/-- The number with `places` fraction digits that is nearest to `num / den`. -/
def round (places num den : Nat) : Scientific :=
  let e := decade num den
  let scaled := scaleDown num den (e - places)
  carried (nearestEven scaled.1 scaled.2) places e

/-- Of the two numbers with `places` fraction digits next to `num / den`, the nearer one that lies
between `low / den` and `high / den`; the ends count if `closed` holds. -/
def within? (low num high den : Nat) (closed : Bool) (places : Nat) : Option Scientific :=
  let e := decade num den
  let grid := e - places
  let (n, unit) := scaleDown num den grid
  let below := n / unit * unit
  let above := below + unit
  let reaches (a b : Nat) : Bool := decide (a < b) || (closed && a == b)
  let downward := reaches (scaleDown low den grid).1 below
  let upward := reaches above (scaleDown high den grid).1
  -- Of two candidates at the same distance the larger one is taken.
  if downward && (!upward || decide (n - below < above - n)) then
    some (carried (n / unit) places e)
  else if upward then
    some (carried (n / unit + 1) places e)
  else
    none

/-- The number with the fewest digits between `low / den` and `high / den`, tried up to seventeen
digits, which suffice for a double. -/
def within (low num high den : Nat) (closed : Bool) : Scientific :=
  ((List.range 17).findSome? (within? low num high den closed)).getD (round 16 num den)

end Scientific

/-- How a power of ten is written. -/
structure ExponentStyle where
  /-- Whether an exponent that is not negative carries a plus sign. -/
  plusSign : Bool
  /-- The least number of digits; shorter exponents are filled up with zeros on the left. -/
  width : Nat

namespace ExponentStyle

/-- The exponent as it is: `e5`, `e-5`. -/
def plain : ExponentStyle := ⟨false, 1⟩

/-- The exponent with a sign and at least two digits: `e+05`, `e-05`. -/
def signed : ExponentStyle := ⟨true, 2⟩

/-- The text of an exponent. -/
def text (style : ExponentStyle) (e : Int) : List Char :=
  let digits := decimalDigits e.natAbs
  let sign := if e < 0 then ['-'] else if style.plusSign then ['+'] else []
  sign ++ List.replicate (style.width - digits.length) '0' ++ digits

/-- The number that a text of digits denotes, of which there has to be at least one. -/
def natural? (text : List Char) : Option Nat :=
  if !text.isEmpty && text.all Char.isDigit then some (Nat.ofDigitChars 10 text 0) else none

/-- The integer that a text denotes: digits, with or without a sign in front. -/
def integer? : List Char → Option Int
  | '-' :: digits => (natural? digits).map fun n => -(n : Int)
  | '+' :: digits => (natural? digits).map fun n => (n : Int)
  | digits => (natural? digits).map fun n => (n : Int)

/-- The exponent that a text denotes: an integer that fits in 32 bits. -/
def read? (text : List Char) : Option Int :=
  (integer? text).filter fun e => decide (-2147483648 ≤ e) && decide (e ≤ 2147483647)

/-- A number in scientific notation with its exponent written anew. A text that has no exponent is
left as it is. -/
def rewrite (style : ExponentStyle) (text : List Char) : List Char :=
  match text.span (· ≠ 'e') with
  | (mantissa, _ :: exponent) =>
    match read? exponent with
    | some e => mantissa ++ 'e' :: style.text e
    | none => text
  | (_, []) => text

end ExponentStyle

namespace Scientific

/-- All digits, filled up with zeros on the left. -/
def allDigits (s : Scientific) : List Char :=
  let digits := decimalDigits s.digits
  List.replicate (s.places + 1 - digits.length) '0' ++ digits

/-- The digits with a point after the first one; no point if none follows. -/
def mantissa (s : Scientific) : List Char :=
  match s.allDigits with
  | [] => []
  | [d] => [d]
  | d :: rest => d :: '.' :: rest

/-- The text `d.ddde±dd`. -/
def text (style : ExponentStyle) (s : Scientific) : List Char :=
  s.mantissa ++ 'e' :: style.text s.exponent

end Scientific

end DualHessian
