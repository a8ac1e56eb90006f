import DualHessian.Proofs.Differences.Pointwise
import DualHessian.Proofs.Differences.Readings
import Mathlib.Algebra.BigOperators.Field
import Mathlib.Algebra.CharZero.Defs
import Mathlib.Algebra.MvPolynomial.PDeriv
import Mathlib.Algebra.Order.Ring.Int
import Mathlib.Algebra.Polynomial.Eval.Defs
import Mathlib.Data.Fin.VecNotation
import Mathlib.Tactic.FieldSimp
import Mathlib.Tactic.Ring

/-!
# Where the stencil is exact

The stencil of fourth order, over a field and without rounding. Applied to a polynomial it sees the
plane through the point that is spanned by the two directions, and on the plane it sees one moment
for each power product.

* `Stencil.moment` is the moment of a power product. Of those up to total degree five only one is
  not zero, and of odd total degree none.
* `plane` restricts a polynomial to the plane, as a polynomial in two variables.
* `Stencil.exists_error_at` is the estimate for any polynomial: the mixed derivative and an error in
  even powers of the step from the fourth on, with a `Stencil.powerError` for each power product.
* `Stencil.fourthOrder_exact` says that it is the mixed derivative up to total degree five, and
  `mixedPartial_fourth_order` says of `mixedPartial` how the error depends on the step.
-/

namespace DualHessian

open MvPolynomial

/-! ## Moments -/

namespace Stencil

/-- The estimate from the values of a function of the multiples of the step. -/
def estimate {α : Type} [Arithmetic α] (s : Stencil α) (f : Int × Int → α) (h : α) : α :=
  s.combine (onGridOf (grid.map f)) h

/-- The sum of the values of a power product at the multiples, with the factors of the stencil. -/
def moment (a b : Nat) : Int :=
  ((fourthOrder : Stencil Int).coefficients.map fun c => c.2.2 * (c.1 ^ a * c.2.1 ^ b)).sum

/-- Up to total degree five the stencil sees only the product of both directions. -/
theorem moment_eq {a b : Nat} (h : a + b ≤ 5) :
    moment a b = if a = 1 ∧ b = 1 then 600 else 0 := by
  -- There are 21 such power products.
  have hall : ∀ a ∈ List.range 6, ∀ b ∈ List.range 6, a + b ≤ 5 →
      moment a b = if a = 1 ∧ b = 1 then 600 else 0 := by
    decide +kernel
  exact hall a (List.mem_range.2 (by omega)) b (List.mem_range.2 (by omega)) h

/-- The stencil does not see a power product of odd total degree. -/
theorem moment_odd {a b : Nat} (h : Odd (a + b)) : moment a b = 0 := by
  -- Opposite perturbations have the same factor.
  have hperm : ((fourthOrder : Stencil Int).coefficients.map fun c => (-c.1, -c.2.1, c.2.2)).Perm
      (fourthOrder : Stencil Int).coefficients := by
    decide
  have hterm : ∀ c : Int × Int × Int,
      c.2.2 * ((-c.1) ^ a * (-c.2.1) ^ b) = -1 * (c.2.2 * (c.1 ^ a * c.2.1 ^ b)) := by
    intro c
    rw [neg_pow c.1, neg_pow c.2.1, mul_mul_mul_comm, ← pow_add, h.neg_one_pow]
    ring
  have hneg : moment a b = -1 * moment a b := by
    conv_lhs => rw [moment, ← (hperm.map _).sum_eq]
    simp only [List.map_map, Function.comp_def, hterm]
    rw [List.sum_map_mul_left, moment]
  omega

variable {K : Type} [Field K]

theorem getD_onGridOf {α : Type} [Arithmetic α] (f : Int × Int → α) {di dj : Int}
    (hd : (di, dj) ∈ grid) : (onGridOf (grid.map f)).getD (gridPlace di dj) 0 = f (di, dj) := by
  have hlt : gridPlace di dj < gridSize := gridPlace_lt hd
  have hplace : grid[gridPlace di dj]? = some (di, dj) := grid_gridPlace (di, dj) hd
  have hvalue : (grid.map f).getD (gridPlace di dj) 0 = f (di, dj) := by
    rw [List.getD_eq_getElem?_getD, List.getElem?_map, hplace]
    rfl
  rw [← hvalue]
  simp [onGridOf, Vector.getD, hlt]

theorem estimate_eq {s : Stencil K} (hs : s.Signed) (hgrid : s.OnGrid) (f : Int × Int → K) (h : K) :
    s.estimate f h =
      (s.coefficients.map fun c => c.2.2 * f (c.1, c.2.1)).sum / (s.denominator * h ^ 2) := by
  have hvalue : ∀ c ∈ s.coefficients,
      c.2.2 * (onGridOf (grid.map f)).getD (gridPlace c.1 c.2.1) 0 = c.2.2 * f (c.1, c.2.1) :=
    fun c hc => by rw [getD_onGridOf f (hgrid.mem_grid hc)]
  rw [estimate, combine_eq hs, List.map_congr_left hvalue]

/-- The estimate as a weighted sum of values. -/
theorem estimate_fourthOrder (f : Int × Int → K) (h : K) :
    fourthOrder.estimate f h =
      ((fourthOrder : Stencil Int).coefficients.map fun c => (c.2.2 : K) * f (c.1, c.2.1)).sum /
        (600 * h * h) := by
  rw [estimate_eq signed_fourthOrder onGrid_fourthOrder f h, pow_two, ← mul_assoc]
  simp [coefficients, fourthOrder, whole]

/-- The estimate of a power product is its moment, times a power of the step. -/
theorem estimate_power (a b : Nat) (h : K) :
    fourthOrder.estimate (fun d => (d.1 * h) ^ a * (d.2 * h) ^ b) h =
      moment a b * h ^ (a + b) / (600 * h * h) := by
  rw [estimate_fourthOrder, moment]
  refine congrArg (· / (600 * h * h)) ?_
  induction (fourthOrder : Stencil Int).coefficients with
  | nil => simp
  | cons c coefficients ih =>
    simp only [List.map_cons, List.sum_cons, ih, Int.cast_add, Int.cast_mul, Int.cast_pow]
    ring

/-- The estimate is linear in the function. -/
theorem estimate_sum {ι : Type*} (s : Finset ι) (w : ι → K) (f : ι → Int × Int → K) (h : K) :
    fourthOrder.estimate (fun d => ∑ m ∈ s, w m * f m d) h =
      ∑ m ∈ s, w m * fourthOrder.estimate (f m) h := by
  have hswap : ∀ coefficients : List (Int × Int × Int),
      (coefficients.map fun c => (c.2.2 : K) * ∑ m ∈ s, w m * f m (c.1, c.2.1)).sum =
        ∑ m ∈ s, w m * (coefficients.map fun c => (c.2.2 : K) * f m (c.1, c.2.1)).sum := by
    intro coefficients
    induction coefficients with
    | nil => simp
    | cons c coefficients ih =>
      rw [List.map_cons, List.sum_cons, ih, Finset.mul_sum, ← Finset.sum_add_distrib]
      apply Finset.sum_congr rfl
      intro m _
      rw [List.map_cons, List.sum_cons]
      ring
  simp only [estimate_fourthOrder]
  rw [hswap, Finset.sum_div]
  exact Finset.sum_congr rfl fun m _ => mul_div_assoc ..

end Stencil

/-! ## The plane of two directions -/

section Plane

variable {K : Type} [Field K] {n : Nat}

/-- A polynomial on the plane through a point that two directions span, as a polynomial in the two
coordinates on the plane. The directions may be the same. -/
noncomputable def plane (x : Fin n → K) (v : Fin 2 → Fin n) :
    MvPolynomial (Fin n) K →ₐ[K] MvPolynomial (Fin 2) K :=
  aeval fun k => C (x k) + ∑ c, if k = v c then X c else 0

/-- The value on the plane is that at the point with the coordinates added. -/
theorem eval_plane (x : Fin n → K) (v : Fin 2 → Fin n) (u : Fin 2 → K)
    (F : MvPolynomial (Fin n) K) :
    eval u (plane x v F) = eval (fun k => x k + ∑ c, if k = v c then u c else 0) F := by
  -- Both sides are ring homomorphisms, so the variables decide.
  induction F using MvPolynomial.induction_on with
  | C a => simp [plane]
  | add F G hF hG => rw [map_add, map_add, map_add, hF, hG]
  | mul_X F k hF =>
    have hX : eval u (plane x v (X k)) = x k + ∑ c, if k = v c then u c else 0 := by
      simp [plane, apply_ite (eval u)]
    rw [map_mul, map_mul, map_mul, hF, hX, eval_X]

/-- A derivative on the plane is the derivative in the direction of the coordinate. -/
theorem pderiv_plane (x : Fin n → K) (v : Fin 2 → Fin n) (c : Fin 2) (F : MvPolynomial (Fin n) K) :
    pderiv c (plane x v F) = plane x v (pderiv (v c) F) := by
  induction F using MvPolynomial.induction_on with
  | C a => simp [plane]
  | add F G hF hG => simp only [map_add, hF, hG]
  | mul_X F k hF =>
    have hX : pderiv c (plane x v (X k)) = plane x v (pderiv (v c) (X k)) := by
      -- A coordinate may belong to both directions, and only the one asked for is differentiated.
      have hsum : ∑ c', (if k = v c' then if c' = c then 1 else 0 else 0) =
          if k = v c then (1 : MvPolynomial (Fin 2) K) else 0 := by
        rw [Finset.sum_eq_single c (fun c' _ hc' => by simp [hc']) (by simp), if_pos rfl]
      simp only [plane, aeval_X, map_add, map_sum, pderiv_C, apply_ite (pderiv c), pderiv_X,
        Pi.single_apply, map_zero, zero_add, hsum]
      split
      · rw [map_one]
      · rw [map_zero]
    simp only [map_mul, Derivation.leibniz, smul_eq_mul, map_add, hF, hX]

/-- Restricted to a plane, a polynomial has at most its degree in the variables of the two
directions. -/
theorem totalDegree_plane_le_of {x : Fin n → K} {v : Fin 2 → Fin n} {F : MvPolynomial (Fin n) K}
    {d : Nat} (hd : ∀ m ∈ F.support, ∑ k ∈ Finset.univ.image v, m k ≤ d) :
    (plane x v F).totalDegree ≤ d := by
  have hlinear : ∀ k, (C (x k) + ∑ c, if k = v c then X c else 0 :
      MvPolynomial (Fin 2) K).totalDegree ≤ if k ∈ Finset.univ.image v then 1 else 0 := by
    intro k
    refine (totalDegree_add _ _).trans (max_le ?_ (totalDegree_finsetSum_le fun c _ => ?_))
    · rw [totalDegree_C]
      exact Nat.zero_le _
    · by_cases hk : k = v c
      · rw [if_pos hk, totalDegree_X, if_pos (hk ▸ Finset.mem_image_of_mem v (Finset.mem_univ c))]
      · rw [if_neg hk, totalDegree_zero]
        exact Nat.zero_le _
  -- Every monomial turns into a product of as many linear polynomials as it has factors in the two
  -- directions, and of constants.
  rw [plane, aeval_def, eval₂_eq']
  apply totalDegree_finsetSum_le
  intro m hm
  calc _ ≤ (algebraMap K (MvPolynomial (Fin 2) K) (coeff m F)).totalDegree +
        ∑ k, m k * (if k ∈ Finset.univ.image v then 1 else 0) := by
        refine (totalDegree_mul _ _).trans (Nat.add_le_add_left ?_ _)
        refine (totalDegree_finsetProd _ _).trans (Finset.sum_le_sum fun k _ => ?_)
        exact (totalDegree_pow _ _).trans (Nat.mul_le_mul_left _ (hlinear k))
    _ = ∑ k ∈ Finset.univ.image v, m k := by
        rw [algebraMap_eq, totalDegree_C, zero_add]
        simp only [mul_ite, mul_one, mul_zero]
        rw [Finset.sum_ite_mem, Finset.univ_inter]
    _ ≤ d := hd m hm

/-- Restricting a polynomial to a plane does not raise its degree. -/
theorem totalDegree_plane_le (x : Fin n → K) (v : Fin 2 → Fin n) (F : MvPolynomial (Fin n) K) :
    (plane x v F).totalDegree ≤ F.totalDegree := by
  refine totalDegree_plane_le_of fun m hm => ?_
  calc ∑ k ∈ Finset.univ.image v, m k ≤ ∑ k, m k :=
        Finset.sum_le_sum_of_subset (Finset.subset_univ _)
    _ = m.sum fun _ e => e := (Finsupp.sum_fintype m (fun _ e => e) fun _ => rfl).symm
    _ ≤ F.totalDegree := le_totalDegree hm

/-- The coefficient of the product of both coordinates is the mixed derivative at the point. -/
theorem coeff_plane (x : Fin n → K) (v : Fin 2 → Fin n) (F : MvPolynomial (Fin n) K) :
    coeff (Finsupp.single 0 1 + Finsupp.single 1 1) (plane x v F) =
      eval x (pderiv (v 0) (pderiv (v 1) F)) := by
  -- The point itself is the origin of the plane.
  have hpoint : ∀ G, eval x G = coeff 0 (plane x v G) := by
    intro G
    have heval := eval_plane x v 0 G
    simp only [Pi.zero_apply, ite_self, Finset.sum_const_zero, add_zero] at heval
    rw [← heval, eval_zero, constantCoeff_eq]
  rw [hpoint, ← pderiv_plane, ← pderiv_plane, coeff_pderiv, coeff_pderiv]
  simp

end Plane

namespace Stencil

variable {K : Type} [Field K] {n : Nat}

theorem estimate_polynomial (G : MvPolynomial (Fin 2) K) (h : K) :
    fourthOrder.estimate (fun d => eval ![d.1 * h, d.2 * h] G) h =
      ∑ m ∈ G.support,
        coeff m G * (moment (m 0) (m 1) * h ^ (m 0 + m 1) / (600 * h * h)) := by
  have hvalue : ∀ d : Int × Int, eval ![d.1 * h, d.2 * h] G =
      ∑ m ∈ G.support, coeff m G * ((d.1 * h) ^ m 0 * (d.2 * h) ^ m 1) := by
    intro d
    rw [eval_eq']
    simp [Fin.prod_univ_two]
  simp only [hvalue]
  rw [estimate_sum]
  simp only [estimate_power]

/-- The error of the estimate for a power product, as a polynomial in the square of the step and up
to the fourth power of the step. -/
noncomputable def powerError (K : Type) [Field K] (a b : Nat) : Polynomial K :=
  if 6 ≤ a + b then Polynomial.C (moment a b / 600 : K) * Polynomial.X ^ ((a + b - 6) / 2) else 0

/-- The estimate for one power product, divided by powers of the step. -/
theorem moment_mul_pow [CharZero K] (m : Fin 2 →₀ Nat) {h : K} (hh : h ≠ 0) :
    (moment (m 0) (m 1) * h ^ (m 0 + m 1) / (600 * h * h) : K) =
      (if m = Finsupp.single 0 1 + Finsupp.single 1 1 then 1 else 0) +
        h ^ 4 * (powerError K (m 0) (m 1)).eval (h ^ 2) := by
  have h600 : (600 : K) ≠ 0 := by
    exact_mod_cast (by decide : (600 : Nat) ≠ 0)
  have hiff : m = Finsupp.single 0 1 + Finsupp.single 1 1 ↔ m 0 = 1 ∧ m 1 = 1 := by
    rw [Finsupp.ext_iff, Fin.forall_fin_two]
    simp
  simp only [hiff]
  generalize m 0 = a
  generalize m 1 = b
  by_cases hlarge : 6 ≤ a + b
  · rw [if_neg (by omega), zero_add, powerError, if_pos hlarge, Polynomial.eval_mul,
      Polynomial.eval_C, Polynomial.eval_pow, Polynomial.eval_X]
    rcases Nat.even_or_odd (a + b) with heven | hodd
    · have hpower : h ^ (a + b) = h ^ 6 * (h ^ 2) ^ ((a + b - 6) / 2) := by
        rw [← pow_mul, ← pow_add]
        congr 1
        have := heven.two_dvd
        omega
      rw [hpower]
      field_simp
    · rw [moment_odd hodd, Int.cast_zero]
      ring
  · rw [powerError, if_neg hlarge, Polynomial.eval_zero, mul_zero, add_zero, moment_eq (by omega)]
    split
    next hone =>
      rw [hone.1, hone.2, Int.cast_ofNat]
      field_simp
    next => rw [Int.cast_zero, zero_mul, zero_div]

/-- The estimate for any polynomial is the mixed coefficient up to an error of fourth order, and
there is no error if the total degree is at most five. -/
theorem exists_error [CharZero K] (G : MvPolynomial (Fin 2) K) :
    ∃ E : Polynomial K,
      (∀ h : K, h ≠ 0 → fourthOrder.estimate (fun d => eval ![d.1 * h, d.2 * h] G) h =
        coeff (Finsupp.single 0 1 + Finsupp.single 1 1) G + h ^ 4 * E.eval (h ^ 2)) ∧
      (G.totalDegree ≤ 5 → E = 0) := by
  refine ⟨∑ m ∈ G.support, Polynomial.C (coeff m G) * powerError K (m 0) (m 1), ?_, ?_⟩
  · intro h hh
    rw [estimate_polynomial]
    simp only [moment_mul_pow _ hh, mul_add]
    rw [Finset.sum_add_distrib]
    congr 1
    · simp only [mul_ite, mul_one, mul_zero]
      rw [Finset.sum_ite_eq', ite_eq_left_iff]
      exact fun hmem => (notMem_support_iff.1 hmem).symm
    · rw [Polynomial.eval_finsetSum, Finset.mul_sum]
      refine Finset.sum_congr rfl fun m _ => ?_
      rw [Polynomial.eval_mul, Polynomial.eval_C]
      ring
  · intro hG
    refine Finset.sum_eq_zero fun m hm => ?_
    have hle := (le_totalDegree hm).trans hG
    rw [Finsupp.sum_fintype _ _ fun _ => rfl, Fin.sum_univ_two] at hle
    rw [powerError, if_neg (by omega), mul_zero]

/-- A perturbed point lies on the plane of its two directions. -/
theorem eval_perturbed (F : MvPolynomial (Fin n) K) (x : Vector K n) (i j : Fin n) (h : K)
    (d : Int × Int) :
    eval (perturbed x i j h d).get F = eval ![d.1 * h, d.2 * h] (plane x.get ![i, j] F) := by
  rw [eval_plane]
  refine congrArg (eval · F) ?_
  ext k
  rw [get_perturbed, Fin.sum_univ_two]
  show (if k = j then _ else _) = x.get k + ((if k = i then d.1 * h else 0) +
    if k = j then d.2 * h else 0)
  split
  · split
    · exact add_assoc ..
    · rw [zero_add]
      rfl
  · split
    · rw [add_zero]
      rfl
    · rw [add_zero, add_zero]

/-- On a polynomial the estimate at a point is the mixed derivative up to an error of fourth order,
and there is no error if the total degree on the plane of both directions is at most five. -/
theorem exists_error_at [CharZero K] (F : MvPolynomial (Fin n) K) (x : Vector K n) (i j : Fin n) :
    ∃ E : Polynomial K,
      (∀ h ≠ 0, fourthOrder.estimate (fun d => eval (perturbed x i j h d).get F) h =
        eval x.get (pderiv i (pderiv j F)) + h ^ 4 * E.eval (h ^ 2)) ∧
      ((plane x.get ![i, j] F).totalDegree ≤ 5 → E = 0) := by
  obtain ⟨E, hvalue, hzero⟩ := exists_error (plane x.get ![i, j] F)
  refine ⟨E, fun h hh => ?_, hzero⟩
  simp only [eval_perturbed]
  rw [hvalue h hh, coeff_plane]
  rfl

/-- On a polynomial of total degree at most five the estimate is the mixed derivative, for two
directions or twice the same one, whatever the step is. -/
theorem fourthOrder_exact [CharZero K] {F : MvPolynomial (Fin n) K} (hF : F.totalDegree ≤ 5)
    (x : Vector K n) (i j : Fin n) {h : K} (hh : h ≠ 0) :
    fourthOrder.estimate (fun d => eval (perturbed x i j h d).get F) h =
      eval x.get (pderiv i (pderiv j F)) := by
  obtain ⟨E, hvalue, hzero⟩ := exists_error_at F x i j
  rw [hvalue h hh, hzero ((totalDegree_plane_le _ _ F).trans hF), Polynomial.eval_zero, mul_zero,
    add_zero]

end Stencil

/-! ## The error of a second derivative -/

section

variable {K : Type} [Field K] [CharZero K] {n : Nat}

/-- Differences of a polynomial are of fourth order: the error is a polynomial in the step that has
even powers only and none below the fourth. It is zero if the degree in the perturbed variables is
at most five. The point is as it was before. -/
theorem mixedPartial_fourth_order (F : MvPolynomial (Fin n) K) (x : Vector K n) (i j : Fin n) :
    ∃ E : Polynomial K,
      (∀ h ≠ 0, mixedPartial (m := Id) (fun y => eval y.get F) x i j h =
        (eval x.get (pderiv i (pderiv j F)) + h ^ 4 * E.eval (h ^ 2), x)) ∧
      ((∀ m ∈ F.support, ∑ k ∈ {i, j}, m k ≤ 5) → E = 0) := by
  obtain ⟨E, hvalue, hzero⟩ := Stencil.exists_error_at F x i j
  refine ⟨E, fun h hh => ?_, fun hdegree => ?_⟩
  · rw [mixedPartial_eq]
    exact congrArg (Prod.mk · x) (hvalue h hh)
  · have hperturbed : Finset.univ.image ![i, j] = {i, j} := by
      ext k
      simp [Fin.exists_fin_two, eq_comm]
    refine hzero (totalDegree_plane_le_of fun m hm => ?_)
    rw [hperturbed]
    exact hdegree m hm

/-- The degree in a variable that is not perturbed may be larger, and the step is not small. -/
theorem mixedPartial_fourth_order_degree_nine :
    mixedPartial (m := Id) (fun y : Vector ℚ 3 => eval y.get (X 0 ^ 3 * X 1 ^ 2 * X 2 ^ 4))
        #v[1, 2, 1] 0 1 (1 / 2) = (12, #v[1, 2, 1]) := by
  obtain ⟨E, hvalue, hzero⟩ := mixedPartial_fourth_order
    (X 0 ^ 3 * X 1 ^ 2 * X 2 ^ 4 : MvPolynomial (Fin 3) ℚ) #v[1, 2, 1] 0 1
  have hmonomial : (X 0 ^ 3 * X 1 ^ 2 * X 2 ^ 4 : MvPolynomial (Fin 3) ℚ) =
      monomial (Finsupp.single 0 3 + Finsupp.single 1 2 + Finsupp.single 2 4) 1 := by
    simp [X_pow_eq_monomial, monomial_mul]
  have hderivative : eval (#v[1, 2, 1] : Vector ℚ 3).get
      (pderiv 0 (pderiv 1 (X 0 ^ 3 * X 1 ^ 2 * X 2 ^ 4))) = 12 := by
    rw [hmonomial, pderiv_monomial, pderiv_monomial, eval_monomial,
      Finsupp.prod_fintype _ _ fun _ => pow_zero _, Fin.prod_univ_three]
    simp [Vector.get]
    norm_num
  have hdegree : E = 0 := by
    refine hzero fun m hm => ?_
    rw [hmonomial, support_monomial, if_neg one_ne_zero, Finset.mem_singleton] at hm
    rw [hm, Finset.sum_pair (by decide)]
    simp
  rw [hvalue (1 / 2) (by norm_num), hderivative, hdegree, Polynomial.eval_zero, mul_zero, add_zero]

end

end DualHessian
