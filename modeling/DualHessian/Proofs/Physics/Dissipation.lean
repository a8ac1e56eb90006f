import Mathlib.Algebra.Order.Chebyshev
import Mathlib.Algebra.Order.Field.Rat
import Mathlib.Tactic.Linarith
import DualHessian.Proofs.Physics.GasState

/-!
# Viscosity and heat conduction dissipate

The stress does positive work on the velocity gradient and heat flows down the temperature gradient,
whatever law the viscosity follows. The dissipative flux carries both with the opposite sign, so
both products with it are never positive.

* `two_thirds_trace_sq_le` bounds the part of the stress that resists compression by the part that
  resists shear. In more than three directions it would be too large.
* `ViscousGas.dissipates` collects what the dissipative flux does.
-/

namespace DualHessian

open GasState

namespace ViscousGas

/-! ## Stress and heat flux -/

section Ring

variable {R : Type} [CommRing R] [Div R] {dim : Nat}

/-- The stress is symmetric. -/
theorem stress_symm (viscosity : R) (A : Flux R dim dim) (k d : Fin dim) :
    ((stress viscosity A).get k).get d = ((stress viscosity A).get d).get k := by
  rw [get_stress, get_stress, add_comm]
  simp only [eq_comm]

/-- What the energy flux carries besides the work of the stress is the heat flux. -/
theorem energy_sub_work (gas : ViscousGas R) (viscosity : R) (u : Vector R (dim + 2))
    (gradient : Flux R dim (dim + 2)) (d : Fin dim) :
    ((gas.fluxOf viscosity u gradient).get energyIndex).get d - ∑ k, (velocity u).get k *
        ((gas.fluxOf viscosity u gradient).get (momentumIndex k)).get d =
      (gas.heatFlux viscosity (gas.temperatureGradient u gradient)).get d := by
  simp [get_fluxOf_energy, mul_comm]

/-- The work of the stress on a velocity gradient. -/
theorem sum_stress_mul (viscosity : R) (A : Flux R dim dim) :
    ∑ k, ∑ d, ((stress viscosity A).get k).get d * (A.get k).get d =
      viscosity * (∑ k, ∑ d, ((A.get k).get d + (A.get d).get k) * (A.get k).get d -
        whole 2 / whole 3 * trace A ^ 2) := by
  have hterm : ∀ k d : Fin dim, ((stress viscosity A).get k).get d * (A.get k).get d =
      viscosity * (((A.get k).get d + (A.get d).get k) * (A.get k).get d) -
        if k = d then whole 2 / whole 3 * viscosity * trace A * (A.get k).get d else 0 := by
    intro k d
    rw [get_stress]
    split <;> ring
  -- The part with the trace meets the diagonal only, and adds up to the trace once more.
  simp only [hterm, Finset.sum_sub_distrib, ← Finset.mul_sum, Finset.sum_ite_eq, Finset.mem_univ,
    if_true]
  rw [← trace_eq_sum]
  ring

end Ring

section Field

variable {K : Type} [Field K] {dim : Nat}

theorem fluxOf_zero (gas : ViscousGas K) (viscosity : K) (u : Vector K (dim + 2)) :
    gas.fluxOf viscosity u Flux.zero = Flux.zero := by
  have hvelocity : velocityGradient u Flux.zero = Flux.zero := Flux.ext_get fun k d => by simp
  have hstress : ∀ k d : Fin dim, ((stress viscosity Flux.zero).get k).get d = 0 := by
    simp [get_stress, trace_eq_sum]
  have htemperature : ∀ d, (gas.temperatureGradient u Flux.zero).get d = 0 := by
    simp [get_temperatureGradient]
  refine Flux.ext_get fun s d => ?_
  cases s using entry_cases with
  | density => simp
  | momentum k => simp [hvelocity, hstress]
  | energy => simp [get_fluxOf_energy, hvelocity, hstress, htemperature]

/-- The dissipative flux of a gas whose viscosity follows a law of the temperature. -/
def fluxUnder (gas : ViscousGas K) (law : K → K) (u : Vector K (dim + 2))
    (gradient : Flux K dim (dim + 2)) : Flux K dim (dim + 2) :=
  gas.fluxOf (law (gas.temperature u) / gas.reynolds) u gradient

end Field

/-! ## Dissipation -/

variable {K : Type} [Field K] [LinearOrder K] [IsStrictOrderedRing K] {dim : Nat}

/-- In at most three directions the trace of a matrix is bounded by its symmetric part. -/
theorem two_thirds_trace_sq_le (hdim : dim ≤ 3) (A : Fin dim → Fin dim → K) :
    2 / 3 * (∑ d, A d d) ^ 2 ≤ ∑ k, ∑ d, (A k d + A d k) * A k d := by
  -- Only the symmetric part does work, and of its squares those on the diagonal are enough.
  have hsymmetric : 2 * ∑ k, ∑ d, (A k d + A d k) * A k d = ∑ k, ∑ d, (A k d + A d k) ^ 2 := by
    have hswap : ∑ k, ∑ d, (A k d + A d k) * A k d = ∑ k, ∑ d, (A k d + A d k) * A d k := by
      rw [Finset.sum_comm]
      simp only [add_comm]
    rw [two_mul]
    nth_rewrite 2 [hswap]
    simp only [← Finset.sum_add_distrib]
    refine Finset.sum_congr rfl fun k _ => Finset.sum_congr rfl fun d _ => ?_
    ring
  have hdiagonal : ∑ d, (2 * A d d) ^ 2 ≤ ∑ k, ∑ d, (A k d + A d k) ^ 2 := by
    refine Finset.sum_le_sum fun k _ => ?_
    rw [two_mul]
    exact Finset.single_le_sum (f := fun d => (A k d + A d k) ^ 2) (fun d _ => sq_nonneg _)
      (Finset.mem_univ k)
  -- The square of the mean is at most the mean of the squares; this is where the dimension counts.
  have hmean : (∑ d, A d d) ^ 2 ≤ 3 * ∑ d, A d d ^ 2 := by
    have hcard : (dim : K) ≤ 3 := by exact_mod_cast hdim
    have hcauchy := sq_sum_le_card_mul_sum_sq (s := Finset.univ) (f := fun d => A d d)
    rw [Finset.card_univ, Fintype.card_fin] at hcauchy
    have hnonneg : 0 ≤ ∑ d, A d d ^ 2 := Finset.sum_nonneg fun d _ => sq_nonneg _
    exact hcauchy.trans (mul_le_mul_of_nonneg_right hcard hnonneg)
  simp only [mul_pow, ← Finset.mul_sum] at hdiagonal
  linarith

theorem sum_stress_mul_nonneg (hdim : dim ≤ 3) {viscosity : K} (hviscosity : 0 ≤ viscosity)
    (A : Flux K dim dim) :
    0 ≤ ∑ k, ∑ d, ((stress viscosity A).get k).get d * (A.get k).get d := by
  have htrace := two_thirds_trace_sq_le hdim fun k d => (A.get k).get d
  have hconstant : (whole 2 / whole 3 : K) = 2 / 3 := by simp [whole]
  rw [sum_stress_mul, trace_eq_sum, hconstant]
  exact mul_nonneg hviscosity (sub_nonneg.2 htrace)

/-- Heat flows against the slope of the temperature. -/
theorem sum_heatFlux_mul_nonpos {gas : ViscousGas K} (hgamma : 1 < gas.gamma)
    (hprandtl : 0 < gas.prandtl) {viscosity : K} (hviscosity : 0 ≤ viscosity)
    (slope : Vector K dim) :
    ∑ d, (gas.heatFlux viscosity slope).get d * slope.get d ≤ 0 := by
  refine Finset.sum_nonpos fun d _ => ?_
  have hscale : 0 ≤ (gas.gamma - 1) * gas.mach * gas.mach * gas.prandtl := by
    rw [mul_assoc (gas.gamma - 1)]
    exact mul_nonneg (mul_nonneg (sub_pos.2 hgamma).le (mul_self_nonneg _)) hprandtl.le
  have hconductivity := div_nonneg hviscosity hscale
  rw [get_heatFlux, mul_right_comm, mul_neg]
  exact neg_nonpos.2 (mul_nonneg (mul_self_nonneg _) hconductivity)

/-- The dissipative flux, for any law of the viscosity that makes it nonnegative at the temperature
of the state. It has no mass row and its momentum block is symmetric; the work of the stress and the
conduction of heat dissipate; and a uniform flow has no dissipative flux. The density and the Mach
number may vanish, because a quotient by zero is zero. -/
theorem dissipates (hdim : dim ≤ 3) {gas : ViscousGas K} (hgamma : 1 < gas.gamma)
    (hprandtl : 0 < gas.prandtl) (law : K → K) (u : Vector K (dim + 2))
    (hviscosity : 0 ≤ law (gas.temperature u) / gas.reynolds) (gradient : Flux K dim (dim + 2)) :
    let F := gas.fluxUnder law u gradient
    F.get densityIndex = .replicate dim 0 ∧
      (∀ k d, (F.get (momentumIndex k)).get d = (F.get (momentumIndex d)).get k) ∧
      ∑ k, ∑ d, (F.get (momentumIndex k)).get d * ((velocityGradient u gradient).get k).get d ≤ 0 ∧
      ∑ d, ((F.get energyIndex).get d -
          ∑ k, (velocity u).get k * (F.get (momentumIndex k)).get d) *
        (gas.temperatureGradient u gradient).get d ≤ 0 ∧
      (gradient = Flux.zero → F = Flux.zero) ∧
      ∀ [RealPower K], law = viscosity → F = gas.dissipativeFlux u gradient := by
  intro F
  refine ⟨?_, fun k d => ?_, ?_, ?_, ?_, ?_⟩
  · exact Column.ext_get fun d => by simp [F, fluxUnder]
  · simp only [F, fluxUnder, get_fluxOf_momentum]
    rw [stress_symm]
  · have hwork := sum_stress_mul_nonneg hdim hviscosity (velocityGradient u gradient)
    simpa only [F, fluxUnder, get_fluxOf_momentum, neg_mul, Finset.sum_neg_distrib, neg_nonpos]
      using hwork
  · simp only [F, fluxUnder, energy_sub_work]
    exact sum_heatFlux_mul_nonpos hgamma hprandtl hviscosity _
  · rintro rfl
    exact fluxOf_zero gas _ u
  · rintro _ rfl
    rfl

/-- A viscosity that grows with the temperature. -/
theorem dissipates_wind : 2 ≤ 3 ∧ 1 < air.gamma ∧ 0 < air.prandtl ∧
    0 ≤ (3 * air.temperature wind) / air.reynolds ∧
    ∑ k, ∑ d, ((air.fluxUnder (3 * ·) wind windGradient).get (momentumIndex k)).get d *
      ((velocityGradient wind windGradient).get k).get d ≤ 0 ∧
    ∑ d, (((air.fluxUnder (3 * ·) wind windGradient).get energyIndex).get d -
        ∑ k, (velocity wind).get k *
          ((air.fluxUnder (3 * ·) wind windGradient).get (momentumIndex k)).get d) *
      (air.temperatureGradient wind windGradient).get d ≤ 0 := by
  have hgamma : 1 < air.gamma := by decide +kernel
  have hprandtl : 0 < air.prandtl := by decide +kernel
  have hviscosity : 0 ≤ (3 * air.temperature wind) / air.reynolds := by decide +kernel
  obtain ⟨-, -, hwork, hheat, -⟩ :=
    dissipates (by decide) hgamma hprandtl (3 * ·) wind hviscosity windGradient
  exact ⟨by decide, hgamma, hprandtl, hviscosity, hwork, hheat⟩

end ViscousGas

end DualHessian
