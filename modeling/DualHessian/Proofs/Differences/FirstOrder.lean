import DualHessian.Differences.FirstOrder
import Mathlib.Algebra.BigOperators.Field
import Mathlib.Algebra.MvPolynomial.PDeriv
import Mathlib.Algebra.Polynomial.Taylor
import Mathlib.Tactic.FieldSimp
import Mathlib.Tactic.IntervalCases
import Mathlib.Tactic.Ring

/-!
# Where first differences are exact

A function is sampled around a point in one direction after the other, and the point is put back;
this holds whatever the function does besides, and no law of arithmetic is used. Over a field and
without rounding, the differences of a polynomial are its derivatives up to an error that is a
polynomial in the square of the step.

* `jacobianInto_eq` says at which points and in which order a function is sampled that overwrites
  its output, and what becomes of the values.
* `LineStencil.HasOrder` collects what a difference formula sees of the powers of the distance, and
  `LineStencil.HasOrder.exists_error` is the error of such a formula for any polynomial. Central
  differences are of second order, the four values of `fourPoint` give fourth order.
* `line` restricts a polynomial in several variables to a line through the point.
* `jacobian_second_order` says all this of `jacobianInto`; `exists_derivative_error` is the error of
  `derivative`.
-/

namespace DualHessian

open Polynomial

/-! ## Samples -/

section Samples

variable {α : Type} [Arithmetic α] {m : Type → Type} [Monad m] {n k : Nat}

/-- The values at a point moved up and down in one direction, in this order. -/
def valuesAround (g : Vector α n → m (Vector α k)) (x : Vector α n) (h : α) (i : Fin n) :
    m (Vector α k × Vector α k) := do
  let above ← g (x.set i (x.get i + h) i.isLt)
  let below ← g (x.set i (x.get i - h) i.isLt)
  return (above, below)

/-- The central differences of the values above and below a point. -/
def centralDifference (h : α) (values : Vector α k × Vector α k) : Vector α k :=
  values.1.zipWith (fun a b => (a - b) / (whole 2 * h)) values.2

section Overwriting

variable [LawfulMonad m] {f : Vector α n → Vector α k → m (Vector α k)}
  {g : Vector α n → m (Vector α k)} (hf : ∀ y out, f y out = g y)

include hf

/-- In one direction the point is moved up from where it was, then down, and is put back. -/
theorem jacobianColumn_eq (h : α) (s : Bench α n k) (i : Fin n) :
    jacobianColumn f h s i = do
      let values ← valuesAround g s.point h i
      return (centralDifference h values, ⟨s.point, values.1, values.2⟩) := by
  have hdown : (s.point.set i (s.point.get i + h) i.isLt).set i (s.point.get i - h) i.isLt =
      s.point.set i (s.point.get i - h) i.isLt := Vector.set_set ..
  have hback : (s.point.set i (s.point.get i - h) i.isLt).set i (s.point.get i) i.isLt =
      s.point := by
    rw [Vector.set_set]
    exact Vector.set_getElem_self i.isLt
  simp only [jacobianColumn, valuesAround, hf, hdown, hback, bind_assoc, pure_bind,
    centralDifference]

theorem jacobianColumns_eq (h : α) (is : List (Fin n)) (s : Bench α n k) :
    (fun out => (out.1, out.2.point)) <$> jacobianColumns f h is s =
      (fun values => (values.map (centralDifference h), s.point)) <$>
        is.mapM (valuesAround g s.point h) := by
  induction is generalizing s with
  | nil => simp [jacobianColumns]
  | cons i is ih =>
    simp only [jacobianColumns, jacobianColumn_eq hf, List.mapM_cons, map_bind, bind_assoc,
      pure_bind, map_pure, List.map_cons]
    refine bind_congr fun values => ?_
    -- The outputs have changed but not the point, so the rest samples around the same one.
    have hrest := congrArg (fun out => (fun o => (centralDifference h values :: o.1, o.2)) <$> out)
      (ih ⟨s.point, values.1, values.2⟩)
    simpa only [Functor.map_map, map_eq_pure_bind, bind_assoc, pure_bind] using hrest

/-- A function that overwrites its output is sampled around the point in one direction after the
other, and nowhere else, and the point is as it was before. -/
theorem jacobianInto_eq (x : Vector α n) (h : α) :
    jacobianInto f x h = do
      let values ← (List.finRange n).mapM (valuesAround g x h)
      return (ofColumns n (values.map (centralDifference h)), x) := by
  have hcolumns := congrArg (fun out => (fun o => (ofColumns n o.1, o.2)) <$> out)
    (jacobianColumns_eq hf h (List.finRange n) ⟨x, .replicate k 0, .replicate k 0⟩)
  simpa only [jacobianInto, Functor.map_map, map_eq_pure_bind, bind_assoc, pure_bind]
    using hcolumns

end Overwriting

/-- The differences of a function without effects. -/
theorem jacobianInto_ofFn (g : Vector α n → Fin k → α) (x : Vector α n) (h : α) :
    jacobianInto (m := Id) (fun y _ => .ofFn (g y)) x h =
      (.ofFn fun r => .ofFn fun i =>
        (g (x.set i (x.get i + h) i.isLt) r - g (x.set i (x.get i - h) i.isLt) r) /
          (whole 2 * h), x) := by
  have hmap : ∀ is : List (Fin n),
      is.mapM (m := Id) (valuesAround (m := Id) (fun y => .ofFn (g y)) x h) =
        is.map fun i => (.ofFn (g (x.set i (x.get i + h) i.isLt)),
          .ofFn (g (x.set i (x.get i - h) i.isLt))) := by
    intro is
    induction is with
    | nil => rfl
    | cons i is ih =>
      rw [List.mapM_cons, ih]
      rfl
  have hget : ∀ (v : Vector α k) (r : Fin k), v.get r = v[r.val] := fun _ _ => rfl
  rw [jacobianInto_eq (m := Id) (g := fun y => .ofFn (g y)) fun _ _ => rfl, hmap]
  refine congrArg (Prod.mk · x) ?_
  simp [ofColumns, centralDifference, hget]

/-- The four values of a function without effects that its derivative is combined from. -/
theorem derivative_eq {r c : Nat} (f : α → Vector (Vector α c) r) (x h : α) :
    derivative (m := Id) f x h = .ofFn fun i => .ofFn fun j =>
      fourPoint (((f (x + whole 2 * h)).get i).get j) (((f (x + h)).get i).get j)
        (((f (x - h)).get i).get j) (((f (x - whole 2 * h)).get i).get j) h :=
  rfl

end Samples

/-! ## Difference formulas on a line -/

/-- A difference formula for a first derivative: the values at multiples of the step are added with
weights, and the sum is divided by a multiple of the step. -/
structure LineStencil (K : Type) where
  /-- The multiples of the step, with the weights of the values there. -/
  weights : List (Int × K)
  /-- The constant that the sum is divided by. -/
  denominator : K

namespace LineStencil

variable {K : Type} [Field K]

/-- The estimate from a function of the distance from the point. -/
def estimate (s : LineStencil K) (f : K → K) (h : K) : K :=
  (s.weights.map fun w => w.2 * f (w.1 * h)).sum / (s.denominator * h)

/-- The sum of the values of a power at the multiples, with their weights. -/
def moment (s : LineStencil K) (j : Nat) : K := (s.weights.map fun w => w.2 * (w.1 : K) ^ j).sum

/-- The formula sees the distance itself as it is; it sees no other power up to the order, and no
even power at all. -/
structure HasOrder (s : LineStencil K) (order : Nat) : Prop where
  /-- The order is even. -/
  even_order : Even order
  /-- The order is not zero. -/
  order_pos : 0 < order
  /-- The constant is not zero. -/
  denominator_ne_zero : s.denominator ≠ 0
  /-- The distance itself. -/
  moment_one : s.moment 1 = s.denominator
  /-- Even powers. -/
  moment_even : ∀ {j}, Even j → s.moment j = 0
  /-- Powers up to the order. -/
  moment_low : ∀ {j}, 1 < j → j ≤ order → s.moment j = 0

theorem estimate_polynomial (s : LineStencil K) (p : K[X]) (h : K) :
    s.estimate p.eval h =
      ∑ j ∈ p.support, p.coeff j * (s.moment j * h ^ j / (s.denominator * h)) := by
  have hsum : (s.weights.map fun w => w.2 * p.eval (w.1 * h)).sum =
      ∑ j ∈ p.support, p.coeff j * (s.moment j * h ^ j) := by
    unfold moment
    induction s.weights with
    | nil => simp
    | cons w weights ih =>
      simp only [List.map_cons, List.sum_cons, ih, add_mul, mul_add, Finset.sum_add_distrib]
      congr 1
      rw [eval_eq_sum, Polynomial.sum, Finset.mul_sum]
      refine Finset.sum_congr rfl fun j _ => ?_
      rw [mul_pow]
      ring
  rw [estimate, hsum, Finset.sum_div]
  exact Finset.sum_congr rfl fun j _ => mul_div_assoc ..

/-- The error of the estimate for a power, as a polynomial in the square of the step and up to the
power of the step that is the order. -/
noncomputable def powerError (s : LineStencil K) (order j : Nat) : K[X] :=
  if order < j then C (s.moment j / s.denominator) * X ^ ((j - 1 - order) / 2) else 0

/-- The estimate for one power, divided by the step. -/
theorem HasOrder.moment_mul_pow {s : LineStencil K} {order : Nat} (hs : s.HasOrder order) (j : Nat)
    {h : K} (hh : h ≠ 0) :
    s.moment j * h ^ j / (s.denominator * h) =
      (if j = 1 then 1 else 0) + h ^ order * (s.powerError order j).eval (h ^ 2) := by
  have hdenominator := hs.denominator_ne_zero
  have horder := hs.order_pos
  -- Even powers are not seen, and of the odd ones only those beyond the order belong to the error.
  rcases Nat.even_or_odd j with heven | hodd
  · have hne : j ≠ 1 := by
      rintro rfl
      exact absurd heven (by decide)
    rw [if_neg hne, powerError]
    split <;> simp [hs.moment_even heven]
  · by_cases hlarge : order < j
    · have hpower : h ^ j = h ^ order * (h ^ 2) ^ ((j - 1 - order) / 2) * h := by
        have hsplit : j = order + 2 * ((j - 1 - order) / 2) + 1 := by
          obtain ⟨a, ha⟩ := hs.even_order
          obtain ⟨b, hb⟩ := hodd
          omega
        conv_lhs => rw [hsplit]
        rw [pow_succ, pow_add, pow_mul]
      rw [if_neg (by omega), zero_add, powerError, if_pos hlarge, hpower, eval_mul, eval_C,
        eval_pow, eval_X]
      field_simp
    · rw [powerError, if_neg hlarge, eval_zero, mul_zero, add_zero]
      split
      next hone => rw [hone, hs.moment_one, pow_one, div_self (mul_ne_zero hdenominator hh)]
      next hne =>
        have hpos := hodd.pos
        rw [hs.moment_low (by omega) (by omega), zero_mul, zero_div]

/-- The estimate for any polynomial is its derivative up to an error in even powers of the step from
the order on, and there is no error if the degree is at most the order. -/
theorem HasOrder.exists_error {s : LineStencil K} {order : Nat} (hs : s.HasOrder order) (p : K[X])
    (x : K) :
    ∃ E : K[X],
      (∀ h ≠ 0, s.estimate (fun t => p.eval (x + t)) h =
        p.derivative.eval x + h ^ order * E.eval (h ^ 2)) ∧
      (p.natDegree ≤ order → E = 0) := by
  -- As a function of the distance the polynomial is its Taylor expansion at the point.
  have hvalue : (fun t => p.eval (x + t)) = (taylor x p).eval := by
    funext t
    rw [taylor_eval, add_comm]
  refine ⟨∑ j ∈ (taylor x p).support, C ((taylor x p).coeff j) * s.powerError order j, ?_, ?_⟩
  · intro h hh
    rw [hvalue, estimate_polynomial]
    simp only [hs.moment_mul_pow _ hh, mul_add]
    rw [Finset.sum_add_distrib]
    congr 1
    · simp only [mul_ite, mul_one, mul_zero]
      rw [Finset.sum_ite_eq', ← taylor_coeff_one, ite_eq_left_iff]
      exact fun hmem => (notMem_support_iff.1 hmem).symm
    · rw [eval_finsetSum, Finset.mul_sum]
      refine Finset.sum_congr rfl fun j _ => ?_
      rw [eval_mul, eval_C]
      ring
  · intro hdegree
    refine Finset.sum_eq_zero fun j hj => ?_
    have hle := le_natDegree_of_mem_supp j hj
    rw [natDegree_taylor] at hle
    rw [powerError, if_neg (by omega), mul_zero]

/-- The difference of the values above and below. -/
def central : LineStencil K := ⟨[(1, 1), (-1, -1)], 2⟩

/-- The combination of two values above and two values below. -/
def fourValues : LineStencil K := ⟨[(2, -(1 / 4)), (1, 2), (-1, -2), (-2, 1 / 4)], 3⟩

theorem estimate_central (f : K → K) (h : K) :
    (f h - f (-h)) / (whole 2 * h) = central.estimate f h := by
  simp [estimate, central, whole, sub_eq_add_neg]

theorem estimate_fourValues (f : K → K) (h : K) :
    fourPoint (f (whole 2 * h)) (f h) (f (-h)) (f (-(whole 2 * h))) h =
      fourValues.estimate f h := by
  simp [estimate, fourValues, fourPoint, ratio, whole]
  ring

variable [CharZero K]

theorem hasOrder_central : (central : LineStencil K).HasOrder 2 where
  even_order := by decide
  order_pos := by decide
  denominator_ne_zero := two_ne_zero
  moment_one := by
    simp [moment, central]
    ring
  moment_even hj := by simp [moment, central, hj.neg_pow]
  moment_low := by
    intro j hlow hhigh
    obtain rfl : j = 2 := by omega
    simp [moment, central]

theorem hasOrder_fourValues : (fourValues : LineStencil K).HasOrder 4 where
  even_order := by decide
  order_pos := by decide
  denominator_ne_zero := OfNat.ofNat_ne_zero 3
  moment_one := by
    simp [moment, fourValues]
    ring
  moment_even hj := by simp [moment, fourValues, hj.neg_pow]
  moment_low := by
    intro j hlow hhigh
    interval_cases j <;> simp [moment, fourValues] <;> ring

end LineStencil

/-! ## Lines through a point -/

section Line

variable {K : Type} [Field K] {n : Nat}

/-- A polynomial on the line through a point in one direction, as a polynomial in the coordinate. -/
noncomputable def line (x : Fin n → K) (i : Fin n) : MvPolynomial (Fin n) K →ₐ[K] K[X] :=
  MvPolynomial.aeval fun k => if k = i then X else C (x k)

/-- The value on the line is that at the point with the coordinate replaced. -/
theorem eval_line (x : Vector K n) (i : Fin n) (t : K) (F : MvPolynomial (Fin n) K) :
    (line x.get i F).eval t = MvPolynomial.eval (x.set i t i.isLt).get F := by
  have hpoint : ∀ k, (x.set i t i.isLt).get k = if k = i then t else x.get k := by
    intro k
    have hget : ∀ y : Vector K n, y.get k = y[k.val] := fun _ => rfl
    simp only [hget, Vector.getElem_set, Fin.val_inj, eq_comm (a := i)]
  induction F using MvPolynomial.induction_on with
  | C a => simp [line]
  | add F G hF hG => rw [map_add, map_add, eval_add, hF, hG]
  | mul_X F k hF =>
    have hX : (line x.get i (MvPolynomial.X k)).eval t = if k = i then t else x.get k := by
      simp [line, apply_ite (eval t)]
    rw [map_mul, map_mul, eval_mul, hF, hX, MvPolynomial.eval_X, hpoint]

/-- The derivative on the line is the derivative in its direction. -/
theorem derivative_line (x : Fin n → K) (i : Fin n) (F : MvPolynomial (Fin n) K) :
    Polynomial.derivative (line x i F) = line x i (MvPolynomial.pderiv i F) := by
  induction F using MvPolynomial.induction_on with
  | C a => simp [line]
  | add F G hF hG => simp only [map_add, hF, hG]
  | mul_X F k hF =>
    have hX : Polynomial.derivative (line x i (MvPolynomial.X k)) =
        line x i (MvPolynomial.pderiv i (MvPolynomial.X k)) := by
      simp only [line, MvPolynomial.aeval_X, MvPolynomial.pderiv_X, Pi.single_apply,
        apply_ite Polynomial.derivative, derivative_X, derivative_C]
      rw [apply_ite (MvPolynomial.aeval _), map_one, map_zero]
    -- Both derivatives obey the product rule.
    simp only [map_mul, derivative_mul, Derivation.leibniz, smul_eq_mul, map_add, hF, hX]
    ring

/-- On the line a polynomial has at most its degree in the variable of the direction. -/
theorem natDegree_line_le (x : Fin n → K) (i : Fin n) (F : MvPolynomial (Fin n) K) :
    (line x i F).natDegree ≤ F.degreeOf i := by
  have hfactor : ∀ k, natDegree (if k = i then X else C (x k) : K[X]) ≤ if k = i then 1 else 0 := by
    intro k
    split
    · exact natDegree_X_le
    · exact (natDegree_C _).le
  -- Every monomial turns into a product of constants and of as many variables as it has.
  rw [line, MvPolynomial.aeval_def, MvPolynomial.eval₂_eq']
  refine natDegree_sum_le_of_forall_le _ _ fun m hm => ?_
  calc _ ≤ ((algebraMap K K[X]) (MvPolynomial.coeff m F)).natDegree +
        ∑ k, m k * (if k = i then 1 else 0) := by
        refine natDegree_mul_le.trans (Nat.add_le_add_left ?_ _)
        refine (natDegree_prod_le _ _).trans (Finset.sum_le_sum fun k _ => ?_)
        exact natDegree_pow_le.trans (Nat.mul_le_mul_left _ (hfactor k))
    _ = m i := by simp
    _ ≤ F.degreeOf i := MvPolynomial.monomial_le_degreeOf i hm

end Line

/-! ## The errors of first derivatives -/

section

variable {K : Type} [Field K] [CharZero K]

/-- Central differences of a polynomial in several variables are its derivative in the direction up
to an error of second order, and there is no error if the degree in the variable is at most two. -/
theorem exists_central_error {n : Nat} (F : MvPolynomial (Fin n) K) (x : Vector K n) (i : Fin n) :
    ∃ E : K[X],
      (∀ h ≠ 0, (MvPolynomial.eval (x.set i (x.get i + h) i.isLt).get F -
          MvPolynomial.eval (x.set i (x.get i - h) i.isLt).get F) / (whole 2 * h) =
        MvPolynomial.eval x.get (MvPolynomial.pderiv i F) + h ^ 2 * E.eval (h ^ 2)) ∧
      (F.degreeOf i ≤ 2 → E = 0) := by
  obtain ⟨E, hvalue, hzero⟩ :=
    LineStencil.hasOrder_central.exists_error (line x.get i F) (x.get i)
  refine ⟨E, fun h hh => ?_, fun hdegree => hzero ((natDegree_line_le _ i F).trans hdegree)⟩
  have hpoint : x.set i (x.get i) i.isLt = x := Vector.set_getElem_self i.isLt
  -- Values on the line are values at the moved points, and at the point itself for the derivative.
  have herror := hvalue h hh
  rw [← LineStencil.estimate_central, derivative_line, ← sub_eq_add_neg] at herror
  rwa [eval_line, eval_line, eval_line, hpoint] at herror

/-- The derivative of a matrix of polynomials is found up to an error of fourth order, and there is
no error in an entry whose degree is at most four. -/
theorem exists_derivative_error {r c : Nat} (F : Fin r → Fin c → K[X]) (x : K) :
    ∃ E : Fin r → Fin c → K[X],
      (∀ h ≠ 0, derivative (m := Id) (fun t => .ofFn fun i => .ofFn fun j => (F i j).eval t) x h =
        .ofFn fun i => .ofFn fun j =>
          (F i j).derivative.eval x + h ^ 4 * (E i j).eval (h ^ 2)) ∧
      ∀ i j, (F i j).natDegree ≤ 4 → E i j = 0 := by
  choose E hvalue hzero using fun i j =>
    LineStencil.hasOrder_fourValues.exists_error (F i j) x
  refine ⟨E, fun h hh => ?_, hzero⟩
  simp only [← hvalue _ _ h hh, ← LineStencil.estimate_fourValues, ← sub_eq_add_neg]
  have hget : ∀ {β : Type} {l : Nat} (a : Fin l → β) (i : Fin l), (Vector.ofFn a).get i = a i :=
    fun _ i => Vector.getElem_ofFn i.isLt
  rw [derivative_eq]
  simp only [hget]

/-- A function that overwrites its output is sampled at the point with one coordinate after the
other moved up and down by the step, and the point is as it was before, whatever the arithmetic is.
Without rounding, what is found of a polynomial is its derivative up to an error that is a
polynomial in the step with even powers only and none below the second. It is zero if the degree in
the variable of the direction is at most two. -/
theorem jacobian_second_order {α : Type} [Arithmetic α] {m : Type → Type} [Monad m]
    [LawfulMonad m] {n k : Nat} {f : Vector α n → Vector α k → m (Vector α k)}
    {g : Vector α n → m (Vector α k)} (hf : ∀ y out, f y out = g y) (x : Vector α n) (h : α)
    (F : Fin k → MvPolynomial (Fin n) K) (z : Vector K n) :
    (jacobianInto f x h = do
      let values ← (List.finRange n).mapM (valuesAround g x h)
      return (ofColumns n (values.map (centralDifference h)), x)) ∧
    ∃ E : Fin k → Fin n → K[X],
      (∀ h ≠ 0, jacobianInto (m := Id)
          (fun y _ => .ofFn fun r => MvPolynomial.eval y.get (F r)) z h =
        (.ofFn fun r => .ofFn fun i => MvPolynomial.eval z.get (MvPolynomial.pderiv i (F r)) +
          h ^ 2 * (E r i).eval (h ^ 2), z)) ∧
      ∀ r i, (F r).degreeOf i ≤ 2 → E r i = 0 := by
  refine ⟨jacobianInto_eq hf x h, ?_⟩
  choose E hvalue hzero using fun r i => exists_central_error (F r) z i
  refine ⟨E, fun h hh => ?_, hzero⟩
  rw [jacobianInto_ofFn]
  simp only [hvalue _ _ h hh]

/-- The product of the squared coordinates, where every point asked for is noted. -/
def notedProduct (y : Vector ℚ 2) : StateM (List (Vector ℚ 2)) (Vector ℚ 1) := do
  modify (· ++ [y])
  return #v[(y.toList.map (· ^ 2)).prod]

/-- The same function, which writes its value to an output. -/
def writtenProduct (y : Vector ℚ 2) (out : Vector ℚ 1) :
    StateM (List (Vector ℚ 2)) (Vector ℚ 1) := do
  modify (· ++ [y])
  return out.set 0 (y.toList.map (· ^ 2)).prod

/-- Four points are sampled, and both derivatives of the product are exact with a step of a half. -/
theorem jacobian_second_order_product :
    (∀ y out, writtenProduct y out = notedProduct y) ∧
    ((jacobianInto writtenProduct #v[3, 4] (1 / 2)).run []).run =
      ((#v[#v[96, 72]], #v[3, 4]),
        [#v[7 / 2, 4], #v[5 / 2, 4], #v[3, 9 / 2], #v[3, 7 / 2]]) ∧
    jacobianInto (m := Id) (fun y _ => .ofFn fun _ : Fin 1 =>
        MvPolynomial.eval y.get (.X 0 ^ 2 * .X 1 ^ 2)) #v[3, 4] (1 / 2) =
      (#v[#v[96, 72]], (#v[3, 4] : Vector ℚ 2)) := by
  have hwritten : ∀ y out, writtenProduct y out = notedProduct y := by
    intro y out
    have hset : out.set 0 (y.toList.map (· ^ 2)).prod = #v[(y.toList.map (· ^ 2)).prod] := by
      ext i hi
      obtain rfl : i = 0 := by omega
      exact Vector.getElem_set_self hi
    rw [writtenProduct, hset]
    rfl
  obtain ⟨hrun, E, hvalue, hzero⟩ := jacobian_second_order hwritten #v[3, 4] (1 / 2)
    (fun _ => (.X 0 ^ 2 * .X 1 ^ 2 : MvPolynomial (Fin 2) ℚ)) #v[3, 4]
  refine ⟨hwritten, ?_, ?_⟩
  · rw [hrun]
    decide +kernel
  · have hmonomial : (.X 0 ^ 2 * .X 1 ^ 2 : MvPolynomial (Fin 2) ℚ) =
        .monomial (Finsupp.single 0 2 + Finsupp.single 1 2) 1 := by
      simp [MvPolynomial.X_pow_eq_monomial, MvPolynomial.monomial_mul]
    have hexact : ∀ r i, E r i = 0 := by
      intro r i
      refine hzero r i ?_
      rw [hmonomial, MvPolynomial.degreeOf_monomial_eq _ _ one_ne_zero]
      fin_cases i <;> simp
    have hderivative : ∀ i, MvPolynomial.eval (#v[3, 4] : Vector ℚ 2).get
        (MvPolynomial.pderiv i (.X 0 ^ 2 * .X 1 ^ 2)) = ![96, 72] i := by
      intro i
      rw [hmonomial, MvPolynomial.pderiv_monomial, MvPolynomial.eval_monomial,
        Finsupp.prod_fintype _ _ fun _ => pow_zero _, Fin.prod_univ_two]
      fin_cases i <;> simp [Vector.get] <;> norm_num
    rw [hvalue (1 / 2) (by norm_num)]
    simp only [hexact, hderivative, eval_zero, mul_zero, add_zero]
    rfl

end

end DualHessian
