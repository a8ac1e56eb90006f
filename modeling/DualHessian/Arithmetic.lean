/-!
# Arithmetic

Every computation of this library is written once, over a type of numbers `α` that supplies the
operations it needs. No law is assumed of them, and the order in which a definition adds and
multiplies is part of its meaning: over `Float` it fixes every bit of a result, over a field it is
one way among many of writing the same value.

* `Arithmetic` bundles the ring operations and division with the integers as constants.
* `SquareRoot`, `Trigonometry` and `RealPower` supply the elementary functions.
* `Magnitude` supplies comparison and absolute value, and a maximum for reductions.
-/

namespace DualHessian

universe u

/-- The four operations of arithmetic, negation, and the integers as constants. -/
class abbrev Arithmetic (α : Type u) :=
  Add α, Sub α, Mul α, Div α, Neg α, Zero α, One α, IntCast α

/-- A square root. -/
class SquareRoot (α : Type u) where
  /-- The square root of a number. -/
  sqrt : α → α

/-- Sine and cosine of an angle in radians. -/
class Trigonometry (α : Type u) where
  /-- The sine. -/
  sin : α → α
  /-- The cosine. -/
  cos : α → α

/-- Powers with an exponent that is itself a number. -/
class RealPower (α : Type u) where
  /-- `power x y` is `x` to the power `y`. -/
  power : α → α → α

/-- Comparison and magnitude of numbers. -/
class Magnitude (α : Type u) where
  /-- Whether the first number is less than the second. -/
  less : α → α → Bool
  /-- Whether two numbers are equal as numbers. -/
  same : α → α → Bool
  /-- The absolute value. -/
  abs : α → α
  /-- The larger of two numbers, where something that is not a number gives way to the other. -/
  larger : α → α → α
  /-- The start of a maximum: a number that `larger` always gives up. -/
  lowest : α
  /-- Whether a number is finite. -/
  finite : α → Bool

export SquareRoot (sqrt)
export Trigonometry (sin cos)
export RealPower (power)

/-! ## Constants -/

section Constants

variable {α : Type u} [Arithmetic α]

/-- The integer `k` as a number. -/
@[inline] def whole (k : Int) : α := (k : α)

/-- The fraction `k / m`. A decimal constant is written as the quotient of two integers, which
correct rounding takes to the number nearest to it. -/
@[inline] def ratio (k m : Int) : α := whole k / whole m

/-- The sum of a list, added from left to right onto zero. -/
def sumOf (xs : List α) : α := xs.foldl (· + ·) 0

@[simp] theorem sumOf_nil : sumOf ([] : List α) = 0 := rfl

/-- The sum of a list, added from left to right onto the negated zero. For doubles that is the start
that changes no sum: a sum of negative zeros, and the sum of nothing, is a negative zero, and a
quotient by it has the opposite sign. -/
def signedSumOf (xs : List α) : α := xs.foldl (· + ·) (-0)

end Constants

/-- The largest of a list of magnitudes: zero if there are none. -/
def largestOf {α : Type u} [Arithmetic α] [Magnitude α] (xs : List α) : α :=
  xs.foldl Magnitude.larger 0

/-! ## Double precision -/

instance instIntCastFloat : IntCast Float := ⟨Float.ofInt⟩

instance : SquareRoot Float := ⟨Float.sqrt⟩

instance : Trigonometry Float := ⟨Float.sin, Float.cos⟩

instance : RealPower Float := ⟨Float.pow⟩

instance : Magnitude Float where
  less x y := decide (x < y)
  same x y := x == y
  abs := Float.abs
  larger x y := if x < y || !(x == x) then y else x
  lowest := -1 / 0
  finite := Float.isFinite

end DualHessian
