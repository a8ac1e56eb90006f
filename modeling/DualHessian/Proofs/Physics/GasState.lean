import Mathlib.Algebra.BigOperators.Fin
import Mathlib.Tactic.Ring
import DualHessian.Physics.ViscousGas

/-!
# Gas states entry by entry

Gas dynamics is written with columns, folds and tables. Over a commutative ring with any division
each of its quantities is a formula in the entries of the state, with sums over the directions in
place of the loops; this module has one equation for each quantity. Dual numbers are such a ring,
and so is every field.

* `GasState.entry_cases` tells density, momentum and energy apart, and `GasState.sum_entries` is the
  sum over all three.
* `Gas.pressure_eq` and the equations of `Gas.flux` read inviscid gas dynamics entry by entry.
* `ViscousGas.get_temperatureGradient`, `ViscousGas.get_stress` and the equations of
  `ViscousGas.fluxOf` do so for the viscous part.
-/

namespace DualHessian

/-! ## Columns and fluxes -/

section Entries

variable {β : Type} {n dim states : Nat}

/-- Columns are equal if their entries are. -/
theorem Column.ext_get {a b : Vector β n} (h : ∀ i, a.get i = b.get i) : a = b :=
  Vector.ext fun i hi => h ⟨i, hi⟩

/-- Fluxes are equal if their entries are. -/
theorem Flux.ext_get {f g : Flux β dim states} (h : ∀ s d, (f.get s).get d = (g.get s).get d) :
    f = g :=
  Column.ext_get fun s => Column.ext_get (h s)

/-- A column of a flux holds what each state has in that direction. -/
@[simp] theorem Flux.get_column (f : Flux β dim states) (d : Fin dim) (s : Fin states) :
    (f.column d).get s = (f.get s).get d :=
  Vector.getElem_map _ s.isLt

/-- All entries of a constant column are the same. -/
@[simp] theorem Column.get_replicate (x : β) (i : Fin n) : (Vector.replicate n x).get i = x :=
  Vector.getElem_replicate i.isLt

end Entries

namespace Column

variable {R : Type} [CommRing R] {n : Nat} (a b : Vector R n) (i : Fin n)

/-- Columns are added entry by entry. -/
@[simp] theorem get_add : (a + b).get i = a.get i + b.get i := Vector.getElem_add a b i i.isLt

/-- Columns are subtracted entry by entry. -/
@[simp] theorem get_sub : (a - b).get i = a.get i - b.get i := Vector.getElem_sub a b i i.isLt

/-- A column is negated entry by entry. -/
@[simp] theorem get_neg : (-a).get i = -a.get i := Vector.getElem_neg a i i.isLt

variable [Div R]

/-- A number multiplies every entry of a column. -/
@[simp] theorem get_times (s : R) : (times a s).get i = a.get i * s := getElem_times a s i i.isLt

/-- A number divides every entry of a column. -/
@[simp] theorem get_dividedBy (s : R) : (dividedBy a s).get i = a.get i / s :=
  getElem_dividedBy a s i i.isLt

/-- The dot product is the sum of the products, whatever order the loop adds them in. -/
theorem dot_eq_sum : dot a b = ∑ i, a.get i * b.get i := by
  have hterms : (a.zipWith (· * ·) b).toList = List.ofFn fun i => a.get i * b.get i := by
    refine List.ext_getElem (by simp) fun i hi _ => ?_
    simp [Vector.get]
  rw [dot, hterms, ← List.sum_ofFn]
  exact List.sum_eq_foldl.symm

/-- The squared norm is the sum of the squares. -/
theorem normSquared_eq_sum : normSquared a = ∑ i, a.get i * a.get i := dot_eq_sum a a

/-- The change of the kinetic energy with velocity `a` if momentum and density change by `m` and
`r`. -/
theorem sum_kinetic (m : Fin n → R) (r : R) :
    ∑ i, (m i * a.get i - r * (ratio 1 2 * a.get i * a.get i)) =
      ∑ i, m i * a.get i - r * (ratio 1 2 * normSquared a) := by
  simp only [Finset.sum_sub_distrib, normSquared_eq_sum, Finset.mul_sum, mul_assoc]

end Column

section Fluxes

variable {R : Type} [CommRing R] {dim states : Nat} (s : Fin states) (d : Fin dim)

/-- Fluxes are added entry by entry. -/
@[simp] theorem Flux.get_add (F G : Flux R dim states) :
    ((F + G).get s).get d = (F.get s).get d + (G.get s).get d := by
  have hrow : (F + G).get s = F.get s + G.get s := Vector.getElem_add F G s s.isLt
  rw [hrow, Column.get_add]

variable [Div R]

/-- All entries of the zero flux vanish. -/
@[simp] theorem Flux.get_zero : ((Flux.zero : Flux R dim states).get s).get d = 0 := by
  simp [Flux.zero]

/-- A number multiplies every entry of a flux. -/
@[simp] theorem Flux.get_times (F : Flux R dim states) (r : R) :
    ((F.times r).get s).get d = (F.get s).get d * r := by
  have hrow : (F.times r).get s = Column.times (F.get s) r := Vector.getElem_map _ s.isLt
  rw [hrow, Column.get_times]

end Fluxes

/-! ## The entries of a gas state -/

namespace GasState

section Build

variable {β : Type} {dim : Nat} (density energy : β) (momentum : Fin dim → β)

/-- The density of a state that is put together from its parts. -/
@[simp] theorem get_build_density : (build density momentum energy).get densityIndex = density := by
  simp [build, densityIndex]

/-- A momentum of a state that is put together from its parts. -/
@[simp] theorem get_build_momentum (k : Fin dim) :
    (build density momentum energy).get (momentumIndex k) = momentum k := by
  simp [build, momentumIndex]

/-- The energy of a state that is put together from its parts. -/
@[simp] theorem get_build_energy : (build density momentum energy).get energyIndex = energy := by
  simp [build, energyIndex]

end Build

variable {dim : Nat}

/-- Every entry is the density, a momentum or the energy. -/
@[elab_as_elim]
theorem entry_cases {motive : Fin (dim + 2) → Prop} (density : motive densityIndex)
    (momentum : ∀ k, motive (momentumIndex k)) (energy : motive energyIndex) (s : Fin (dim + 2)) :
    motive s := by
  obtain ⟨s, hs⟩ := s
  rcases Nat.eq_zero_or_pos s with rfl | hpos
  · exact density
  · rcases Nat.lt_or_ge (s - 1) dim with hlt | hge
    · have hmomentum := momentum ⟨s - 1, hlt⟩
      simpa [momentumIndex, Nat.sub_add_cancel hpos] using hmomentum
    · obtain rfl : s = dim + 1 := by omega
      exact energy

/-- A sum over all entries. -/
theorem sum_entries {M : Type} [AddCommMonoid M] (f : Fin (dim + 2) → M) :
    ∑ s, f s = f densityIndex + ∑ k, f (momentumIndex k) + f energyIndex := by
  rw [Fin.sum_univ_castSucc, Fin.sum_univ_succ]
  rfl

/-- A product over all entries. -/
theorem prod_entries {M : Type} [CommMonoid M] (f : Fin (dim + 2) → M) :
    ∏ s, f s = f densityIndex * (∏ k, f (momentumIndex k)) * f energyIndex := by
  rw [Fin.prod_univ_castSucc, Fin.prod_univ_succ]
  rfl

variable {R : Type} (u : Vector R (dim + 2)) (k : Fin dim)

/-- The momenta stand between density and energy. -/
@[simp] theorem get_momentum : (momentum u).get k = u.get (momentumIndex k) := by
  simp [momentum]

variable [CommRing R] [Div R]

/-- The velocity is momentum by density. -/
theorem get_velocity : (velocity u).get k = u.get (momentumIndex k) / density u := by
  simp [velocity]

end GasState

open GasState

variable {R : Type} [CommRing R] [Div R] {dim : Nat}

/-! ## Inviscid gas dynamics -/

namespace Gas

variable (gas : Gas R) (u : Vector R (dim + 2)) (k d : Fin dim)

/-- The pressure is what kinetic energy leaves of the total energy, times `gamma - 1`. -/
theorem pressure_eq : gas.pressure u = (gas.gamma - 1) * (totalEnergy u -
    ratio 1 2 * density u * ∑ k, (velocity u).get k * (velocity u).get k) := by
  rw [pressure, Column.normSquared_eq_sum]

/-- Mass moves with the gas. -/
@[simp] theorem get_flux_density :
    ((gas.flux u).get densityIndex).get d = density u * (velocity u).get d := by
  simp [flux]

/-- Momentum moves with the gas, and the pressure pushes it in its own direction. -/
theorem get_flux_momentum : ((gas.flux u).get (momentumIndex k)).get d =
    density u * (velocity u).get k * (velocity u).get d + if k = d then gas.pressure u else 0 := by
  split <;> simp_all [flux]

/-- Energy and pressure move with the gas. -/
@[simp] theorem get_flux_energy : ((gas.flux u).get energyIndex).get d =
    (velocity u).get d * (totalEnergy u + gas.pressure u) := by
  simp [flux]

end Gas

/-! ## Viscous gas dynamics -/

namespace ViscousGas

variable (gas : ViscousGas R) (u : Vector R (dim + 2)) (gradient : Flux R dim (dim + 2))
  (k d : Fin dim)

/-- The gradient of a velocity, by the quotient rule. -/
@[simp] theorem get_velocityGradient : ((velocityGradient u gradient).get k).get d =
    ((gradient.get (momentumIndex k)).get d -
      (velocity u).get k * (gradient.get densityIndex).get d) / density u :=
  Flux.get_build _ k d

/-- The gradient of the kinetic energy for each volume, as it is added up. -/
theorem get_foldl_kinetic (momenta : Fin dim → Vector R dim) (rho : Vector R dim)
    (v : Fin dim → R) (ks : List (Fin dim)) (start : Vector R dim) :
    (ks.foldl (fun total k => total + Column.times (momenta k) (v k) -
        Column.times rho (ratio 1 2 * v k * v k)) start).get d =
      start.get d + (ks.map fun k =>
        (momenta k).get d * v k - rho.get d * (ratio 1 2 * v k * v k)).sum := by
  -- Each step starts from what was added before, so the start has to be arbitrary.
  induction ks generalizing start with
  | nil => simp
  | cons k ks ih =>
    rw [List.foldl_cons, ih, List.map_cons, List.sum_cons]
    simp only [Column.get_add, Column.get_sub, Column.get_times]
    ring

/-- The gradient of the temperature, by the quotient rule, from the gradients of the internal energy
and of the density. -/
theorem get_temperatureGradient : (gas.temperatureGradient u gradient).get d =
    ((((gradient.get energyIndex).get d - ∑ k,
          ((gradient.get (momentumIndex k)).get d * (velocity u).get k -
            (gradient.get densityIndex).get d *
              (ratio 1 2 * (velocity u).get k * (velocity u).get k))) * (gas.gamma - 1)) /
        density u -
      (gradient.get densityIndex).get d * (gas.pressure u / (density u * density u))) *
      (gas.gamma * gas.mach * gas.mach) := by
  simp only [temperatureGradient, Column.get_times, Column.get_sub, Column.get_dividedBy,
    get_foldl_kinetic, Column.get_replicate, zero_add]
  rw [List.finRange, List.map_ofFn, List.sum_ofFn]
  rfl

/-- The trace is the sum of the diagonal. -/
theorem trace_eq_sum (A : Flux R dim dim) : trace A = ∑ d, (A.get d).get d := by
  rw [trace, sumOf, ← List.sum_eq_foldl, List.finRange, List.map_ofFn, List.sum_ofFn]
  rfl

/-- The stress is the symmetric gradient times the viscosity, without a part of its trace on the
diagonal. -/
theorem get_stress (viscosity : R) (A : Flux R dim dim) :
    ((stress viscosity A).get k).get d = ((A.get k).get d + (A.get d).get k) * viscosity -
      if k = d then whole 2 / whole 3 * viscosity * trace A else 0 := by
  rw [stress, Flux.get_build]
  split <;> simp

/-- Heat flows against the slope of the temperature. -/
@[simp] theorem get_heatFlux (viscosity : R) (slope : Vector R dim) :
    (gas.heatFlux viscosity slope).get d = slope.get d *
      -(viscosity / ((gas.gamma - 1) * gas.mach * gas.mach * gas.prandtl)) := by
  simp [heatFlux]

variable (viscosity : R)

/-- Viscosity moves no mass. -/
@[simp] theorem get_fluxOf_density :
    ((gas.fluxOf viscosity u gradient).get densityIndex).get d = 0 := by
  simp [fluxOf]

/-- Viscosity moves momentum by the stress. -/
@[simp] theorem get_fluxOf_momentum :
    ((gas.fluxOf viscosity u gradient).get (momentumIndex k)).get d =
      -((stress viscosity (velocityGradient u gradient)).get k).get d := by
  simp [fluxOf]

/-- Viscosity moves energy by the work of the stress and by heat. -/
theorem get_fluxOf_energy : ((gas.fluxOf viscosity u gradient).get energyIndex).get d =
    -(∑ k, ((stress viscosity (velocityGradient u gradient)).get k).get d * (velocity u).get k) +
      (gas.heatFlux viscosity (gas.temperatureGradient u gradient)).get d := by
  simp [fluxOf, Column.dot_eq_sum]

end ViscousGas

/-! ## Air in motion -/

/-- Air with the usual constants. -/
def air : ViscousGas Rat := ⟨⟨7 / 5⟩, 1 / 2, 50000, 18 / 25⟩

/-- Gas that moves with velocity `(1, 2)`. -/
def wind : Vector Rat (2 + 2) := #v[2, 2, 4, 30]

/-- A gradient in which every entry of the state varies. -/
def windGradient : Flux Rat 2 (2 + 2) := #v[#v[1, 0], #v[3, 1], #v[1, -1], #v[4, 2]]

end DualHessian
