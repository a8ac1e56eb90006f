import DualHessian.Physics.Model
import DualHessian.Proofs.Differences.FirstOrder
import Mathlib.Tactic.ComputeDegree

/-!
# Source terms without rounding

The source term of a conservation law differentiates the columns of the flux of the manufactured
solution, each in its own direction. Over a field, where the differences of polynomials up to the
fourth degree are exact, it is the divergence of that flux.

* `Model.columnDerivative_eq` is the derivative of one column that depends on its own coordinate as
  such polynomials do.
* `Model.source_eq_divergence` says how the error of a derivative depends on the step, and that the
  source term is the divergence.
-/

namespace DualHessian

open Polynomial

namespace Model

variable {K : Type} [Field K] {dim states : Nat}

/-- Adding columns one after the other adds their entries. -/
theorem getElem_foldl_add (columns : Fin dim → Vector K states) (ds : List (Fin dim))
    (start : Vector K states) (s : Nat) (hs : s < states) :
    (ds.foldl (fun total d => total + columns d) start)[s] =
      start[s] + (ds.map fun d => (columns d)[s]).sum := by
  induction ds generalizing start with
  | nil => simp
  | cons d ds ih =>
    rw [List.foldl_cons, ih, List.map_cons, List.sum_cons, Vector.getElem_add, add_assoc]

variable [CharZero K]

theorem sourceStep_ne_zero : (sourceStep : K) ≠ 0 := by
  have hstep : (sourceStep : K) = ((1 : Int) : K) / ((1000 : Int) : K) := rfl
  rw [hstep]
  simp

variable [Trigonometry K]

/-- The derivative of a column of the flux that is a polynomial of degree at most four in its own
coordinate. -/
theorem columnDerivative_eq (P : Model K dim states) (x : Vector K dim) (d : Fin dim)
    {G : Fin states → K[X]}
    (hG : ∀ t, (P.totalFlux (x.set d t d.isLt)).column d = .ofFn fun s => (G s).eval t)
    (hdegree : ∀ s, (G s).natDegree ≤ 4) :
    P.columnDerivative x d = .ofFn fun s => (G s).derivative.eval (x.get d) := by
  have halong : (fun t => Flux.ofColumn ((P.totalFlux (x.set d t d.isLt)).column d)) =
      fun t => .ofFn fun s => .ofFn fun _ => (G s).eval t := by
    funext t
    rw [hG]
    ext s hs j hj
    simp [Flux.ofColumn]
  -- The step is fixed, so exactness has to come from the degree alone.
  obtain ⟨E, hvalue, hzero⟩ := exists_derivative_error (fun s (_ : Fin 1) => G s) (x.get d)
  have hderivative := hvalue _ sourceStep_ne_zero
  simp only [hzero _ _ (hdegree _), eval_zero, mul_zero, add_zero] at hderivative
  have hcolumn : P.columnDerivative x d = Flux.onlyColumn (derivative (m := Id)
      (fun t => Flux.ofColumn ((P.totalFlux (x.set d t d.isLt)).column d)) (x.get d) sourceStep) :=
    rfl
  rw [hcolumn, halong, hderivative]
  ext s hs
  simp [Flux.onlyColumn, Flux.column]

/-- The derivative of a matrix of polynomials is found up to an error that is a polynomial in the
step with even powers only and none below the fourth, and it is exact in the entries of degree at
most four. So if every column of the flux of the manufactured solution is a polynomial of degree at
most four in its own coordinate, then the source term is the divergence of the flux. -/
theorem source_eq_divergence :
    (∀ {r c : Nat} (F : Fin r → Fin c → K[X]) (x : K), ∃ E : Fin r → Fin c → K[X],
      (∀ h ≠ 0, derivative (m := Id) (fun t => .ofFn fun i => .ofFn fun j => (F i j).eval t) x h =
        .ofFn fun i => .ofFn fun j =>
          (F i j).derivative.eval x + h ^ 4 * (E i j).eval (h ^ 2)) ∧
      ∀ i j, (F i j).natDegree ≤ 4 → E i j = 0) ∧
    ∀ (P : Model K dim states) (x : Vector K dim) (G : Fin dim → Fin states → K[X]),
      (∀ (d : Fin dim) (t : K), (P.totalFlux (x.set d t d.isLt)).column d =
        .ofFn fun s => (G d s).eval t) →
      (∀ d s, (G d s).natDegree ≤ 4) →
      P.source x = .ofFn fun s => ∑ d, (G d s).derivative.eval (x.get d) := by
  refine ⟨exists_derivative_error, fun P x G hG hdegree => ?_⟩
  have hcolumn := fun d => P.columnDerivative_eq x d (hG d) (hdegree d)
  ext s hs
  rw [source, getElem_foldl_add]
  simp [hcolumn, List.sum_ofFn, List.finRange]

end Model

/-! ## A model whose columns have degree four -/

/-- Sine and cosine of small angles, to first order. -/
instance : Trigonometry ℚ := ⟨fun t => t, fun _ => 1⟩

/-- Powers of the state are carried along the axes. For small angles the manufactured solution is
the product of the coordinates. -/
def quarticModel : Model ℚ 2 1 where
  convective u := .build fun s d => u.get s ^ (4 - 2 * d.val)
  eigenvalues _ _ := #v[0]
  maxEigenvalue _ := 0
  dissipative _ _ := Flux.zero
  manufactured := ⟨#v[1, 1], #v[0, 0], #v[0], #v[1]⟩

theorem totalFlux_quarticModel (x y : ℚ) :
    quarticModel.totalFlux #v[x, y] = #v[#v[(x * y) ^ 4, (x * y) ^ 2]] := by
  have hphases : quarticModel.manufactured.phases #v[x, y] = #v[x, y] := by
    ext d hd
    interval_cases d <;> simp [quarticModel, Manufactured.phases]
  have hvalue : quarticModel.manufactured.value #v[x, y] = #v[x * y] := by
    ext s hs
    simp only [Manufactured.value, Manufactured.sineProduct, hphases]
    simp [quarticModel, Column.product, sin]
  rw [Model.totalFlux, hvalue]
  ext s hs d hd
  interval_cases d <;> simp [quarticModel, Model.flux, Flux.build, Flux.zero, Vector.get]

/-- The columns of the flux as polynomials in their own coordinates, at the point `(2, 3)`. -/
noncomputable def quarticColumns (d : Fin 2) (_ : Fin 1) : ℚ[X] :=
  ![C 81 * X ^ 4, C 4 * X ^ 2] d

/-- The source term is exact although the step is not small for it: `2592 + 24`. -/
theorem source_eq_divergence_quartic :
    (∀ (d : Fin 2) (t : ℚ), (quarticModel.totalFlux ((#v[2, 3] : Vector ℚ 2).set d t d.isLt)).column
      d = .ofFn fun s => (quarticColumns d s).eval t) ∧
    (∀ d s, (quarticColumns d s).natDegree ≤ 4) ∧
    quarticModel.source #v[2, 3] = #v[2616] := by
  have hcolumns : ∀ (d : Fin 2) (t : ℚ),
      (quarticModel.totalFlux ((#v[2, 3] : Vector ℚ 2).set d t d.isLt)).column d =
        .ofFn fun s => (quarticColumns d s).eval t := by
    intro d t
    ext s hs
    fin_cases d
    · simp [totalFlux_quarticModel, Flux.column, quarticColumns, Vector.get]
      ring
    · simp [totalFlux_quarticModel, Flux.column, quarticColumns, Vector.get]
      ring
  have hdegree : ∀ d s, (quarticColumns d s).natDegree ≤ 4 := by
    intro d s
    fin_cases d
    · show (C 81 * X ^ 4 : ℚ[X]).natDegree ≤ 4
      compute_degree
    · show (C 4 * X ^ 2 : ℚ[X]).natDegree ≤ 4
      compute_degree!
  refine ⟨hcolumns, hdegree, ?_⟩
  rw [Model.source_eq_divergence.2 quarticModel #v[2, 3] quarticColumns hcolumns hdegree]
  ext s hs
  simp [quarticColumns, Vector.get, Fin.sum_univ_two]
  norm_num

end DualHessian
