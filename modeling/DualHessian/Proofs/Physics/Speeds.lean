import Mathlib.Algebra.Order.BigOperators.Ring.Finset
import Mathlib.Analysis.SpecialFunctions.Pow.Real
import Mathlib.Order.Bounds.Defs
import DualHessian.Physics.Linear
import DualHessian.Proofs.Numbers.Exact
import DualHessian.Proofs.Physics.Spectrum

/-!
# The largest speed

Every conservation law says what its largest eigenvalue is over all unit normals, without looking at
a normal. Over an ordered field with square roots this is exact: no eigenvalue along a unit normal
is larger in magnitude, and one of them has this magnitude.

* `Column.abs_dot_le` is the inequality of Cauchy and Schwarz, and
  `Column.exists_normal_dot_eq_norm` says that some unit normal attains it.
* `Model.speeds` collects the magnitudes of the eigenvalues along all unit normals, and
  `Model.SharpAt` says that the largest eigenvalue is the greatest of them.
* `maxEigenvalue_isGreatest` says so of all five laws.
-/

namespace DualHessian

open GasState

variable {K : Type} [Field K] [LinearOrder K] [IsStrictOrderedRing K] [SquareRoot K]

/-! ## Lengths -/

namespace Column

variable [ExactRoots K] {n : Nat} (a b : Vector K n)

theorem norm_nonneg : 0 ≤ norm a := ExactRoots.sqrt_nonneg (normSquared_nonneg a)

theorem norm_mul_norm : norm a * norm a = normSquared a :=
  ExactRoots.sqrt_mul_sqrt (normSquared_nonneg a)

/-- The inequality of Cauchy and Schwarz. -/
theorem abs_dot_le : |dot a b| ≤ norm a * norm b := by
  refine abs_le_of_sq_le_sq ?_ (mul_nonneg (norm_nonneg a) (norm_nonneg b))
  calc dot a b ^ 2 = (∑ i, a.get i * b.get i) ^ 2 := by rw [dot_eq_sum]
    _ ≤ (∑ i, a.get i ^ 2) * ∑ i, b.get i ^ 2 := Finset.sum_mul_sq_le_sq_mul_sq _ _ _
    _ = normSquared a * normSquared b := by simp only [normSquared_eq_sum, sq]
    _ = (norm a * norm b) ^ 2 := by
      rw [← norm_mul_norm a, ← norm_mul_norm b]
      ring

variable {a} in
theorem norm_eq_one (ha : normSquared a = 1) : norm a = 1 := by
  have hsquare : norm a * norm a = 1 := (norm_mul_norm a).trans ha
  refine (mul_self_eq_one_iff.1 hsquare).resolve_right fun hminus => ?_
  linarith [norm_nonneg a]

/-- Some unit normal points along a column. -/
theorem exists_normal_dot_eq_norm (hn : 0 < n) :
    ∃ normal, norm normal = 1 ∧ dot a normal = norm a := by
  by_cases ha : norm a = 0
  · -- The column vanishes, so it does not matter which normal is taken.
    refine ⟨.ofFn (Pi.single ⟨0, hn⟩ 1), norm_eq_one ?_, ?_⟩
    · simp [normSquared_eq_sum, Pi.single_apply]
    · have hle := abs_dot_le a (.ofFn (Pi.single ⟨0, hn⟩ 1))
      rw [ha, zero_mul] at hle
      rw [ha]
      exact abs_nonpos_iff.1 hle
  · have hsum : ∑ i, a.get i * a.get i = norm a * norm a := by
      rw [norm_mul_norm, normSquared_eq_sum]
    refine ⟨dividedBy a (norm a), norm_eq_one ?_, ?_⟩
    · simp only [normSquared_eq_sum, get_dividedBy, div_mul_div_comm, ← Finset.sum_div, hsum]
      exact div_self (mul_ne_zero ha ha)
    · simp only [dot_eq_sum, get_dividedBy, ← mul_div_assoc, ← Finset.sum_div, hsum]
      exact mul_div_cancel_right₀ _ ha

end Column

/-! ## Speeds -/

variable {dim states : Nat}

/-- The magnitudes of the eigenvalues of a state along all unit normals. -/
def Model.speeds (P : Model K dim states) (u : Vector K states) : Set K :=
  {speed | ∃ normal, Column.norm normal = 1 ∧ ∃ s, |(P.eigenvalues u normal).get s| = speed}

/-- The largest eigenvalue that the law states for `u` is the greatest of the speeds. -/
def Model.SharpAt (P : Model K dim states) (u : Vector K states) : Prop :=
  IsGreatest (P.speeds u) (P.maxEigenvalue u)

variable [ExactRoots K]

/-- Advection is fastest along its velocity. -/
theorem Advection.sharpAt (hdim : 0 < dim) (hstates : 0 < states) (a : Advection K dim)
    (u : Vector K states) : a.model.SharpAt u := by
  have heigenvalue : ∀ normal (s : Fin states),
      (a.model.eigenvalues u normal).get s = Column.dot a.velocity normal :=
    fun normal s => Column.get_replicate _ s
  refine ⟨?_, ?_⟩
  · obtain ⟨normal, hnormal, halong⟩ := Column.exists_normal_dot_eq_norm a.velocity hdim
    refine ⟨normal, hnormal, ⟨0, hstates⟩, ?_⟩
    rw [heigenvalue, halong]
    exact abs_of_nonneg (Column.norm_nonneg _)
  · rintro _ ⟨normal, hnormal, s, rfl⟩
    have hle := Column.abs_dot_le a.velocity normal
    rw [hnormal, mul_one] at hle
    rw [heigenvalue]
    exact hle

/-- Diffusion carries nothing along any normal. -/
theorem Diffusion.sharpAt (hdim : 0 < dim) (hstates : 0 < states) (d : Diffusion K)
    (u : Vector K states) : (d.model : Model K dim states).SharpAt u := by
  have heigenvalue : ∀ normal s, ((d.model : Model K dim states).eigenvalues u normal).get s = 0 :=
    fun normal s => Column.get_replicate _ s
  refine ⟨?_, ?_⟩
  · obtain ⟨normal, hnormal, -⟩ := Column.exists_normal_dot_eq_norm (.replicate dim (0 : K)) hdim
    refine ⟨normal, hnormal, ⟨0, hstates⟩, ?_⟩
    rw [heigenvalue]
    exact abs_zero
  · rintro _ ⟨normal, hnormal, s, rfl⟩
    rw [heigenvalue]
    exact abs_zero.le

/-- A gas is fastest along its velocity, where sound adds its speed. -/
theorem Gas.sharpAt (hdim : 0 < dim) (gas : Gas K) {u : Vector K (dim + 2)}
    (hsound : 0 ≤ gas.gamma * gas.pressure u / density u) : gas.model.SharpAt u := by
  have hacoustic : 0 ≤ gas.sound u := ExactRoots.sqrt_nonneg hsound
  refine ⟨?_, ?_⟩
  · obtain ⟨normal, hnormal, halong⟩ := Column.exists_normal_dot_eq_norm (velocity u) hdim
    have henergy : (gas.eigenvalues u normal).get energyIndex =
        Column.norm (velocity u) + gas.sound u := by
      simp [Gas.eigenvalues, halong, hnormal]
    refine ⟨normal, hnormal, energyIndex, ?_⟩
    exact (congrArg abs henergy).trans
      (abs_of_nonneg (add_nonneg (Column.norm_nonneg _) hacoustic))
  · rintro _ ⟨normal, hnormal, s, rfl⟩
    -- A unit normal sees at most the length of the velocity, and sound at its own speed.
    have halong := Column.abs_dot_le (velocity u) normal
    rw [hnormal, mul_one, abs_le] at halong
    show |(gas.eigenvalues u normal).get s| ≤ Column.norm (velocity u) + gas.sound u
    rw [abs_le]
    cases s using entry_cases with
    | density =>
      simp only [Gas.eigenvalues, get_build_density, hnormal, mul_one]
      constructor <;> linarith
    | momentum k =>
      simp only [Gas.eigenvalues, get_build_momentum]
      constructor <;> linarith
    | energy =>
      simp only [Gas.eigenvalues, get_build_energy, hnormal, mul_one]
      constructor <;> linarith

/-- The largest eigenvalue of each of the five laws, whatever its constants are, is the greatest
magnitude of an eigenvalue along a unit normal, and is attained. A gas needs a state in which sound
has a speed. -/
theorem maxEigenvalue_isGreatest [RealPower K] (hdim : 0 < dim) (hstates : 0 < states) :
    (∀ (a : Advection K dim) (u : Vector K states), a.model.SharpAt u) ∧
      (∀ (d : Diffusion K) (u : Vector K states), (d.model : Model K dim states).SharpAt u) ∧
      (∀ (d : Diffusion K) (a : Advection K dim) (u : Vector K states),
        (d.withAdvection a).SharpAt u) ∧
      (∀ (gas : Gas K) (u : Vector K (dim + 2)), 0 < density u →
        0 ≤ gas.gamma * gas.pressure u / density u → gas.model.SharpAt u) ∧
      ∀ (gas : ViscousGas K) (u : Vector K (dim + 2)), 0 < density u →
        0 ≤ gas.gamma * gas.pressure u / density u → gas.model.SharpAt u :=
  -- Diffusion does not change the eigenvalues of advection, nor viscosity those of a gas.
  ⟨Advection.sharpAt hdim hstates, Diffusion.sharpAt hdim hstates,
    fun _ => Advection.sharpAt hdim hstates, fun gas _ _ => gas.sharpAt hdim,
    fun gas _ _ => gas.toGas.sharpAt hdim⟩

instance : ExactRoots ℝ where
  sqrt_nonneg _ := Real.sqrt_nonneg _
  sqrt_mul_sqrt := Real.mul_self_sqrt

/-- Real powers. -/
noncomputable instance : RealPower ℝ := ⟨fun x y => x ^ y⟩

/-- The velocity `(1, 2)` has length `√5`, and the speed of sound is 2. -/
theorem maxEigenvalue_isGreatest_breeze : 0 < 2 ∧ 0 < 4 ∧ 0 < density breeze ∧
    0 ≤ planarGas.gamma * planarGas.pressure breeze / density breeze ∧
    IsGreatest (planarGas.model.speeds breeze) (√5 + 2) := by
  have hdensity : 0 < density breeze := by
    have htwo : density breeze = 2 := rfl
    exact htwo ▸ two_pos
  have hnonneg : 0 ≤ planarGas.gamma * planarGas.pressure breeze / density breeze :=
    soundSquared_breeze ▸ sq_nonneg 2
  have hnorm : Column.norm (velocity breeze) = √5 := by
    have hnormSquared : Column.normSquared (velocity breeze) = 5 := by
      rw [velocity_breeze, Column.normSquared_eq_sum]
      norm_num [Fin.sum_univ_two, Vector.get]
    exact congrArg Real.sqrt hnormSquared
  have hmax : planarGas.model.maxEigenvalue breeze = √5 + 2 :=
    congrArg₂ (· + ·) hnorm sound_breeze
  obtain ⟨-, -, -, hgas, -⟩ :=
    maxEigenvalue_isGreatest (K := ℝ) (two_pos : 0 < 2) (four_pos : 0 < 4)
  exact ⟨two_pos, four_pos, hdensity, hnonneg, hmax ▸ hgas planarGas breeze hdensity hnonneg⟩

end DualHessian
