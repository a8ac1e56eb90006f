import DualHessian.Arithmetic

/-!
# Laws of doubles

Arithmetic with infinities and with something that is not a number. Sums, products and quotients are
rounded, so few laws of a field hold; those collected in `DoubleLaws` do, and they suffice to
reason about comparisons, maxima, sums of magnitudes and quotients by a norm.

* `IsNumber` says that something is a number, possibly infinite: it is equal to itself.
* `AtMost` is the comparison `≤` as it is carried out: it fails if one side is not a number.
* `largestOf` of a list passes over what is not a number. It is at least every number of the list,
  and it is zero or one of them.
-/

namespace DualHessian

namespace Magnitude

variable {α : Type} [Magnitude α]

/-- It is a number, possibly infinite. -/
def IsNumber (x : α) : Prop := same x x = true

/-- It is an infinite number. -/
def IsInfinite (x : α) : Prop := IsNumber x ∧ finite x = false

/-- The first number compares as less than or equal to the second. -/
def AtMost (x y : α) : Prop := less x y = true ∨ same x y = true

/-- It compares as equal to zero. -/
def IsZero [Zero α] (x : α) : Prop := same x 0 = true

/-- They compare as equal, or neither of them is a number. -/
def SameNumber (x y : α) : Prop := same x y = true ∨ ¬IsNumber x ∧ ¬IsNumber y

instance (x : α) : Decidable (IsNumber x) := inferInstanceAs (Decidable (same x x = true))

instance (x : α) : Decidable (IsInfinite x) :=
  inferInstanceAs (Decidable (IsNumber x ∧ finite x = false))

instance (x y : α) : Decidable (AtMost x y) :=
  inferInstanceAs (Decidable (less x y = true ∨ same x y = true))

instance [Zero α] (x : α) : Decidable (IsZero x) := inferInstanceAs (Decidable (same x 0 = true))

/-- Every number is the same number as itself. -/
theorem SameNumber.refl (x : α) : SameNumber x x :=
  (Decidable.em (IsNumber x)).imp_right fun h => ⟨h, h⟩

end Magnitude

open Magnitude

/-- What is true of doubles. -/
class DoubleLaws (α : Type) [Arithmetic α] [Magnitude α] [SquareRoot α] : Prop where
  /-- Only numbers are less than others. -/
  number_of_less : ∀ {x y : α}, less x y = true → IsNumber x ∧ IsNumber y
  /-- Only numbers are equal to others. -/
  number_of_same : ∀ {x y : α}, same x y = true → IsNumber x ∧ IsNumber y
  /-- Two numbers can be compared. -/
  atMost_of_not_less : ∀ {x y : α}, IsNumber x → IsNumber y → less y x = false → AtMost x y
  /-- Comparisons can be chained. -/
  atMost_trans : ∀ {x y z : α}, AtMost x y → AtMost y z → AtMost x z
  /-- Numbers that are at most each other are equal. -/
  same_of_atMost : ∀ {x y : α}, AtMost x y → AtMost y x → same x y = true
  /-- The larger of two is one of them. -/
  larger_eq : ∀ x y : α, larger x y = x ∨ larger x y = y
  /-- The larger of two is at least the first one, if that is a number. -/
  atMost_larger_left : ∀ {x : α} (y : α), IsNumber x → AtMost x (larger x y)
  /-- The larger of two is at least the second one, if that is a number. -/
  atMost_larger_right : ∀ (x : α) {y : α}, IsNumber y → AtMost y (larger x y)
  /-- Zero is a finite number. -/
  finite_zero : IsNumber (0 : α) ∧ finite (0 : α) = true
  /-- One is not negative. -/
  zero_atMost_one : AtMost (0 : α) 1
  /-- A sum of numbers that are not negative is one. -/
  add_nonneg : ∀ {x y : α}, AtMost 0 x → AtMost 0 y → AtMost 0 (x + y)
  /-- A sum is a number only if both terms are. -/
  number_of_add : ∀ {x y : α}, IsNumber (x + y) → IsNumber x ∧ IsNumber y
  /-- Negative zero is not less than zero. -/
  zero_atMost_neg : AtMost (0 : α) (-0)
  /-- A square is not negative. -/
  mul_self_nonneg : ∀ {x : α}, IsNumber x → AtMost 0 (x * x)
  /-- A product is a number only if both factors are. -/
  number_of_mul : ∀ {x y : α}, IsNumber (x * y) → IsNumber x ∧ IsNumber y
  /-- A magnitude is not negative. -/
  abs_nonneg : ∀ {x : α}, IsNumber x → AtMost 0 (abs x)
  /-- Numbers that are not negative have square roots, which are not negative. -/
  sqrt_nonneg : ∀ {x : α}, AtMost 0 x → AtMost 0 (sqrt x)
  /-- A quotient is a number if both sides are, unless both are infinite or both are zero. -/
  number_div_iff : ∀ {x y : α}, IsNumber (x / y) ↔
    IsNumber x ∧ IsNumber y ∧ ¬(IsInfinite x ∧ IsInfinite y) ∧ ¬(IsZero x ∧ IsZero y)
  /-- Dividing by the same number keeps the order of numbers that are not negative. -/
  div_atMost_div : ∀ {x y z : α}, AtMost 0 x → AtMost x y → AtMost 0 z →
    IsNumber (x / z) → IsNumber (y / z) → AtMost (x / z) (y / z)

namespace DoubleLaws

variable {α : Type} [Arithmetic α] [Magnitude α] [SquareRoot α] [DoubleLaws α]

/-- What can be compared are numbers. -/
theorem number_of_atMost {x y : α} (h : AtMost x y) : IsNumber x ∧ IsNumber y :=
  h.elim number_of_less number_of_same

/-! ## Sums of magnitudes -/

private theorem foldl_add_nonneg {xs : List α} {start : α} (hstart : AtMost 0 start)
    (h : ∀ x ∈ xs, AtMost 0 x) : AtMost 0 (xs.foldl (· + ·) start) := by
  induction xs generalizing start with
  | nil => exact hstart
  | cons x xs ih =>
    rw [List.foldl_cons]
    have hsum : AtMost 0 (start + x) := add_nonneg hstart (h x List.mem_cons_self)
    exact ih hsum fun y hy => h y (List.mem_cons_of_mem x hy)

/-- Sums of numbers that are not negative are not negative. -/
theorem sumOf_nonneg {xs : List α} (h : ∀ x ∈ xs, AtMost 0 x) : AtMost 0 (sumOf xs) :=
  foldl_add_nonneg (.inr finite_zero.1) h

/-- The same of sums that start from negative zero. -/
theorem signedSumOf_nonneg {xs : List α} (h : ∀ x ∈ xs, AtMost 0 x) :
    AtMost 0 (signedSumOf xs) :=
  foldl_add_nonneg zero_atMost_neg h

/-- A sum is a number only if all its terms are. -/
theorem number_of_foldl_add {xs : List α} {start : α}
    (h : IsNumber (xs.foldl (· + ·) start)) : IsNumber start ∧ ∀ x ∈ xs, IsNumber x := by
  induction xs generalizing start with
  | nil => exact ⟨h, fun x hx => absurd hx List.not_mem_nil⟩
  | cons x xs ih =>
    obtain ⟨hsum, hrest⟩ := ih h
    obtain ⟨hstart, hx⟩ := number_of_add hsum
    refine ⟨hstart, fun y hy => ?_⟩
    rcases List.mem_cons.1 hy with rfl | hy
    · exact hx
    · exact hrest y hy

/-! ## Maxima -/

/-- A maximum is at least where it starts and every number it passes, and it is one of them. -/
theorem foldl_larger_spec {xs : List α} {start : α} (hstart : IsNumber start) :
    AtMost start (xs.foldl larger start) ∧
      (∀ x ∈ xs, IsNumber x → AtMost x (xs.foldl larger start)) ∧
      (xs.foldl larger start = start ∨ xs.foldl larger start ∈ xs) := by
  induction xs generalizing start with
  | nil => exact ⟨.inr hstart, fun x hx => absurd hx List.not_mem_nil, .inl rfl⟩
  | cons x xs ih =>
    -- The maximum never falls, so a number that it has passed stays below it.
    have hleft : AtMost start (larger start x) := atMost_larger_left x hstart
    obtain ⟨hfrom, hall, hmem⟩ := ih (number_of_atMost hleft).2
    rw [List.foldl_cons]
    refine ⟨atMost_trans hleft hfrom, fun y hy hnumber => ?_, ?_⟩
    · rcases List.mem_cons.1 hy with rfl | hy
      · exact atMost_trans (atMost_larger_right start hnumber) hfrom
      · exact hall y hy hnumber
    · rcases hmem with heq | hmem
      · rw [heq]
        rcases larger_eq start x with h | h
        · exact .inl h
        · rw [h]
          exact .inr List.mem_cons_self
      · exact .inr (List.mem_cons_of_mem x hmem)

/-- The largest of a list is at least every number in it. -/
theorem atMost_largestOf {xs : List α} {x : α} (hx : x ∈ xs) (hnumber : IsNumber x) :
    AtMost x (largestOf xs) :=
  (foldl_larger_spec finite_zero.1).2.1 x hx hnumber

/-- The largest of a list is zero or one of its elements. -/
theorem largestOf_eq (xs : List α) : largestOf xs = 0 ∨ largestOf xs ∈ xs :=
  (foldl_larger_spec finite_zero.1).2.2

/-- The largest of a list is a number. -/
theorem number_largestOf (xs : List α) : IsNumber (largestOf xs) := by
  have hstart : AtMost 0 (largestOf xs) := (foldl_larger_spec finite_zero.1).1
  exact (number_of_atMost hstart).2

end DoubleLaws

end DualHessian
