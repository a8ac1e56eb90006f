import Mathlib.Algebra.BigOperators.Fin
import Mathlib.Algebra.BigOperators.Ring.Finset
import DualHessian.Physics.Manufactured
import DualHessian.Proofs.Numbers.Dual
import DualHessian.Proofs.Physics.GasState

/-!
# Derivatives of manufactured solutions

A manufactured solution comes with its gradient and its Laplacian, each by a formula of its own.
Evaluated at a point of dual numbers that moves along an axis, the field and its gradient show their
derivatives in front of `ε`, and these are what the formulas give. Sine and cosine may be any two
functions, as long as each counts as the derivative of the other.

* `Manufactured.sineProduct_eq`, `Manufactured.get_sineGradient`, `Manufactured.get_value` and so on
  read the field entry by entry, over any commutative ring.
* `Tangent.sin_moving` and `Tangent.cos_moving` extend sine and cosine to dual numbers.
* `Manufactured.derivatives_exact` says that gradient and Laplacian are the derivatives.
-/

namespace DualHessian

open TrivSqZeroExt DualNumber Tangent

/-! ## Entries -/

section Entries

variable {R : Type} [CommRing R]

/-- The loop that multiplies is a product, times what it starts from. -/
theorem foldl_mul_eq {ι : Type} (f : ι → R) (ks : List ι) (start : R) :
    ks.foldl (fun product k => product * f k) start = start * (ks.map f).prod := by
  induction ks generalizing start with
  | nil => simp
  | cons k ks ih => simp [ih, mul_assoc]

/-- Multiplying by all factors but one, from the first to the last. -/
theorem foldl_mul_others {n : Nat} (f : Fin n → R) (d : Fin n) (start : R) :
    ((List.finRange n).filter (· ≠ d)).foldl (fun product k => product * f k) start =
      start * ∏ k ∈ Finset.univ.erase d, f k := by
  -- Each of the others stands in the list once, so the list may be read as a set.
  have hothers : ((List.finRange n).filter (· ≠ d)).toFinset = Finset.univ.erase d := by
    ext k
    simp
  rw [foldl_mul_eq, ← hothers, List.prod_toFinset f ((List.nodup_finRange n).filter _)]

variable [Div R]

/-- The product of a column is the product of its entries. -/
theorem Column.product_eq_prod {n : Nat} (a : Vector R n) : Column.product a = ∏ i, a.get i := by
  have hentries : a.toList = List.ofFn a.get := by
    refine List.ext_getElem (by simp) fun i hi _ => ?_
    simp [Vector.get]
  rw [product, ← List.prod_eq_foldl, hentries, List.prod_ofFn]

namespace Manufactured

variable {dim states : Nat} (u : Manufactured R dim states) (x : Vector R dim) (d : Fin dim)
  (s : Fin states)

/-- A phase is an affine function of its coordinate. -/
theorem get_phases : (u.phases x).get d = u.frequencies.get d * x.get d + u.offsets.get d := by
  rw [phases, Column.get_add]
  exact congrArg (· + _) (Vector.getElem_zipWith d.isLt)

variable [Trigonometry R]

/-- The solution is made of a product of sines, one for each coordinate. -/
theorem sineProduct_eq : u.sineProduct x = ∏ d, sin ((u.phases x).get d) := by
  rw [sineProduct, Column.product_eq_prod]
  exact Finset.prod_congr rfl fun d _ => Vector.getElem_map _ d.isLt

/-- Its slope in one direction has a cosine in place of the sine there. -/
theorem get_sineGradient : (u.sineGradient x).get d =
    u.frequencies.get d * cos ((u.phases x).get d) *
      ∏ k ∈ Finset.univ.erase d, sin ((u.phases x).get k) := by
  have hsines : ∀ k, ((u.phases x).map sin).get k = sin ((u.phases x).get k) :=
    fun k => Vector.getElem_map _ k.isLt
  rw [sineGradient, Column.get_ofFn, foldl_mul_others]
  simp only [hsines]

/-- The solution varies around its base by its amplitude. -/
theorem get_value : (u.value x).get s = u.base.get s + u.amplitude.get s * u.sineProduct x := by
  rw [value, Column.get_add, Column.get_times]

/-- Its gradient varies by the same amplitude. -/
theorem get_gradient :
    ((u.gradient x).get s).get d = u.amplitude.get s * (u.sineGradient x).get d :=
  Flux.get_build _ s d

/-- So does its Laplacian, since each sine is an eigenfunction. -/
theorem get_laplacian : (u.laplacian x).get s =
    u.amplitude.get s * (-Column.normSquared u.frequencies * u.sineProduct x) :=
  Column.get_times _ _ _

end Manufactured

end Entries

/-! ## Moving points -/

variable {K : Type} [Field K]

namespace Tangent

/-- The direction of an axis. -/
def axis {n : Nat} (d : Fin n) : Vector K n := .ofFn (Pi.single d 1)

/-- The direction of an axis is one there and zero elsewhere. -/
@[simp] theorem get_axis {n : Nat} (d k : Fin n) :
    (axis d : Vector K n).get k = Pi.single (M := fun _ => K) d 1 k :=
  Column.get_ofFn _ k

variable [Trigonometry K]

/-- Sine and cosine of dual numbers. -/
instance instTrigonometry : Trigonometry (DualNumber K) where
  sin z := inl (sin z.fst) + (z.snd * cos z.fst) • ε
  cos z := inl (cos z.fst) - (z.snd * sin z.fst) • ε

/-- The sine of a dual number has the cosine as its slope. -/
theorem sin_moving (a b : K) :
    sin (inl a + b • ε : DualNumber K) = inl (sin a) + (b * cos a) • ε := by
  simp [sin]

/-- The cosine of a dual number has the negative sine as its slope. -/
theorem cos_moving (a b : K) :
    cos (inl a + b • ε : DualNumber K) = inl (cos a) - (b * sin a) • ε := by
  simp [cos]

end Tangent

namespace Manufactured

variable {dim states : Nat}

/-- The field whose constants do not move. -/
def dual (u : Manufactured K dim states) : Manufactured (DualNumber K) dim states where
  frequencies := constant u.frequencies
  offsets := constant u.offsets
  base := constant u.base
  amplitude := constant u.amplitude

variable (u : Manufactured K dim states) (x : Vector K dim) (d : Fin dim)

/-- Of the angles of a point that moves along an axis only one moves. -/
theorem get_phases_along (k : Fin dim) : (u.dual.phases (along x (axis d))).get k =
    inl ((u.phases x).get k) + (if k = d then u.frequencies.get d else 0) • ε := by
  rw [get_phases, get_phases]
  by_cases hk : k = d
  · subst hk
    ext <;> simp [dual]
  · ext <;> simp [dual, hk]

variable [Trigonometry K]

/-- The sines of the other angles do not move. -/
theorem prod_sines_along :
    ∏ k ∈ Finset.univ.erase d, sin ((u.dual.phases (along x (axis d))).get k) =
      (inl (∏ k ∈ Finset.univ.erase d, sin ((u.phases x).get k)) : DualNumber K) := by
  have hinl := map_prod (inlHom K K) (fun k => sin ((u.phases x).get k)) (Finset.univ.erase d)
  refine Eq.trans (Finset.prod_congr rfl fun k hk => ?_) hinl.symm
  rw [get_phases_along, if_neg (Finset.ne_of_mem_erase hk), sin_moving, zero_mul, zero_smul,
    add_zero]
  rfl

/-- The product of sines at a moving point. -/
theorem sineProduct_along : u.dual.sineProduct (along x (axis d)) =
    inl (u.sineProduct x) + (u.sineGradient x).get d • ε := by
  have hmoves := get_phases_along u x d d
  rw [if_pos rfl] at hmoves
  -- The factor that moves stands apart from the others, which do not.
  rw [sineProduct_eq, sineProduct_eq, get_sineGradient, ← Finset.mul_prod_erase _ _
    (Finset.mem_univ d), ← Finset.mul_prod_erase _ _ (Finset.mem_univ d), prod_sines_along, hmoves,
    sin_moving, moving_mul_inl]

/-- The slope of the product of sines along an axis moves by the second derivative of one sine. -/
theorem snd_sineGradient_along : ((u.dual.sineGradient (along x (axis d))).get d).snd =
    -(u.frequencies.get d * u.frequencies.get d) * u.sineProduct x := by
  have hmoves := get_phases_along u x d d
  rw [if_pos rfl] at hmoves
  rw [get_sineGradient, prod_sines_along, hmoves, cos_moving, sineProduct_eq,
    ← Finset.mul_prod_erase _ _ (Finset.mem_univ d)]
  simp [dual]
  ring

/-- At a point that moves along an axis the field is its value and, in front of `ε`, the column of
its gradient, and what stands in front of `ε` in the columns of the gradient adds up to the
Laplacian. -/
theorem derivatives_exact :
    (∀ d, u.dual.value (along x (axis d)) = along (u.value x) ((u.gradient x).column d)) ∧
      u.laplacian x = .ofFn fun s =>
        ∑ d, (((u.dual.gradient (along x (axis d))).column d).get s).snd := by
  refine ⟨fun d => Column.ext_get fun s => ?_, Column.ext_get fun s => ?_⟩
  · rw [get_value, sineProduct_along, get_along, get_value, Flux.get_column, get_gradient]
    ext <;> simp [dual]
  · -- Every direction takes out the square of its own frequency and leaves the same product.
    have hentry : ∀ d, (((u.dual.gradient (along x (axis d))).column d).get s).snd =
        u.amplitude.get s * (-(u.frequencies.get d * u.frequencies.get d) * u.sineProduct x) := by
      intro d
      rw [Flux.get_column, get_gradient, DualNumber.snd_mul, snd_sineGradient_along]
      simp [dual]
    rw [get_laplacian, Column.get_ofFn, Column.normSquared_eq_sum]
    simp only [hentry, ← Finset.mul_sum, ← Finset.sum_mul, Finset.sum_neg_distrib]

end Manufactured

end DualHessian
