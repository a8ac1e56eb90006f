import DualHessian.Physics.Equation
import DualHessian.Proofs.Physics.Manufactured
import DualHessian.Proofs.Physics.Source

/-!
# Source terms of the linear laws

Advection and diffusion act on every state by itself and are linear in it, and so are the
differences that source terms are computed with. So the source term of both together is the sum of
theirs, although each law evaluates its own manufactured solution, and no row of it sees another
state. Nothing is asked of sine and cosine, and the differences need not be exact.

* `Model.get_source` reads a row of a source term as difference quotients of the same row of the
  flux.
* `Model.Rowwise` says that a row depends on nothing but the base and the amplitude of its state.
* `Equation.linear_superposition` collects what holds of the three laws.
-/

namespace DualHessian

variable {K : Type} [Field K] {dim states : Nat}

/-! ## Rows of source terms -/

namespace Model

/-- The difference quotient along an axis that source terms are computed with. -/
def axisSlope (f : Vector K dim → K) (x : Vector K dim) (d : Fin dim) : K :=
  let along (t : K) : K := f (x.set d t d.isLt)
  fourPoint (along (x.get d + whole 2 * sourceStep)) (along (x.get d + sourceStep))
    (along (x.get d - sourceStep)) (along (x.get d - whole 2 * sourceStep)) sourceStep

theorem axisSlope_add (f g : Vector K dim → K) (x : Vector K dim) (d : Fin dim) :
    axisSlope (fun y => f y + g y) x d = axisSlope f x d + axisSlope g x d := by
  simp only [axisSlope, fourPoint, ← add_div]
  ring

variable [Trigonometry K]

/-- A row of the source term differentiates the entries of that row of the flux. -/
theorem get_source (P : Model K dim states) (x : Vector K dim) (s : Fin states) :
    (P.source x).get s = ∑ d, axisSlope (fun y => ((P.totalFlux y).get s).get d) x d := by
  have hline : ∀ (a : Vector K states) (j : Fin 1), ((Flux.ofColumn a).get s).get j = a.get s := by
    intro a j
    have hrow : (Flux.ofColumn a).get s = .replicate 1 (a.get s) := Vector.getElem_map _ s.isLt
    rw [hrow, Column.get_replicate]
  have hcolumn : ∀ d, (P.columnDerivative x d).get s =
      axisSlope (fun y => ((P.totalFlux y).get s).get d) x d := by
    intro d
    refine (Flux.get_column _ 0 s).trans ?_
    simp only [Id.run, derivative_eq, Column.get_ofFn, hline, Flux.get_column]
    rfl
  -- The columns are added onto zero, from the first direction to the last.
  have hrows := getElem_foldl_add (fun d => P.columnDerivative x d) (List.finRange dim)
    (.replicate states 0) s s.isLt
  rw [Vector.getElem_replicate, zero_add, ← Fin.sum_univ_def] at hrows
  exact hrows.trans (Finset.sum_congr rfl fun d _ => hcolumn d)

/-- If fluxes add up everywhere, then so do source terms. -/
theorem source_add {C A D : Model K dim states}
    (hflux : ∀ x, C.totalFlux x = A.totalFlux x + D.totalFlux x) (x : Vector K dim) :
    C.source x = A.source x + D.source x := by
  refine Column.ext_get fun s => ?_
  simp only [Column.get_add, get_source, hflux, Flux.get_add, axisSlope_add,
    Finset.sum_add_distrib]

/-- If a row of the flux is the same everywhere, then so is that row of the source term. -/
theorem get_source_congr {P Q : Model K dim states} {s t : Fin states}
    (hrow : ∀ x, (P.totalFlux x).get s = (Q.totalFlux x).get t) (x : Vector K dim) :
    (P.source x).get s = (Q.source x).get t := by
  simp only [get_source, hrow]

/-- The law with another manufactured solution. -/
def withSolution (P : Model K dim states) (w : Manufactured K dim states) : Model K dim states :=
  { P with manufactured := w }

/-- Whatever the manufactured solution is, the rows of flux and source term depend on its waves and,
each of them, on the base and the amplitude of the state in that row. -/
def Rowwise (P : Model K dim states) : Prop :=
  ∀ (w w' : Manufactured K dim states) (s s' : Fin states),
    w.frequencies = w'.frequencies → w.offsets = w'.offsets →
    w.base.get s = w'.base.get s' → w.amplitude.get s = w'.amplitude.get s' →
    ∀ (x : Vector K dim) (u u' : Vector K states),
      ((P.withSolution w).totalFlux x).get s = ((P.withSolution w').totalFlux x).get s' ∧
        ((P.withSolution w).sourceTerm x u).get s = ((P.withSolution w').sourceTerm x u').get s'

end Model

/-! ## Laws that act row by row -/

namespace Manufactured

variable {w w' : Manufactured K dim states} {s s' : Fin states}
  (hfrequencies : w.frequencies = w'.frequencies) (hoffsets : w.offsets = w'.offsets)

include hfrequencies hoffsets

theorem phases_congr (x : Vector K dim) : w.phases x = w'.phases x := by
  rw [phases, phases, hfrequencies, hoffsets]

variable [Trigonometry K] (hamplitude : w.amplitude.get s = w'.amplitude.get s')

include hamplitude

theorem get_value_congr (hbase : w.base.get s = w'.base.get s') (x : Vector K dim) :
    (w.value x).get s = (w'.value x).get s' := by
  rw [get_value, get_value, sineProduct, sineProduct, phases_congr hfrequencies hoffsets, hbase,
    hamplitude]

theorem get_gradient_congr (x : Vector K dim) : (w.gradient x).get s = (w'.gradient x).get s' := by
  refine Column.ext_get fun d => ?_
  rw [get_gradient, get_gradient, get_sineGradient, get_sineGradient,
    phases_congr hfrequencies hoffsets, hfrequencies, hamplitude]

end Manufactured

namespace Model

/-- A law is rowwise if it computes each row of the flux from that row of state and gradient. -/
theorem rowwise_of_flux [Trigonometry K] {P : Model K dim states}
    (row : K → Vector K dim → Vector K dim)
    (hrow : ∀ u gradient s, (P.flux u gradient).get s = row (u.get s) (gradient.get s)) :
    P.Rowwise := by
  intro w w' s s' hfrequencies hoffsets hbase hamplitude
  have hflux : ∀ x, ((P.withSolution w).totalFlux x).get s =
      ((P.withSolution w').totalFlux x).get s' := by
    intro x
    refine (hrow _ _ s).trans ((congrArg₂ row ?_ ?_).trans (hrow _ _ s').symm)
    · exact Manufactured.get_value_congr hfrequencies hoffsets hamplitude hbase x
    · exact Manufactured.get_gradient_congr hfrequencies hoffsets hamplitude x
  exact fun x _ _ => ⟨hflux x, get_source_congr hflux x⟩

end Model

/-! ## The linear laws -/

section Laws

variable [SquareRoot K] (a : Advection K dim) (c : Diffusion K) (u : Vector K states)
  (gradient : Flux K dim states) (s : Fin states) (d : Fin dim)

theorem Advection.get_flux_model :
    ((a.model.flux u gradient).get s).get d = u.get s * a.velocity.get d := by
  simp [Model.flux, model, flux, Flux.outer]

omit [SquareRoot K] in
theorem Diffusion.get_flux_model :
    ((c.model.flux u gradient).get s).get d = (gradient.get s).get d * -c.coefficient := by
  simp [Model.flux, model, flux]

/-- With both, the fluxes of the two add up. -/
theorem Diffusion.get_flux_withAdvection :
    (((c.withAdvection a).flux u gradient).get s).get d =
      u.get s * a.velocity.get d + (gradient.get s).get d * -c.coefficient := by
  simp [Model.flux, withAdvection, flux, Advection.flux, Flux.outer]

end Laws

namespace Equation

variable [SquareRoot K] [RealPower K] [Trigonometry K]

/-- The three linear laws exist for the same parameters and any number of states. Flux and source
term of advection with diffusion are the sums of theirs, at every point and for every value of the
solution there, and all three are rowwise. -/
theorem linear_superposition (parameters : Parameters K) (dim states : Nat) :
    ∃ A D C : Model K dim states,
      advection.model parameters dim states = .ok A ∧
        diffusion.model parameters dim states = .ok D ∧
        convectionDiffusion.model parameters dim states = .ok C ∧
        (∀ x, C.totalFlux x = A.totalFlux x + D.totalFlux x) ∧
        (∀ x u, C.sourceTerm x u = A.sourceTerm x u + D.sourceTerm x u) ∧
        A.Rowwise ∧ D.Rowwise ∧ C.Rowwise := by
  let a := Advection.ofParameters parameters dim
  let c := Diffusion.ofParameters parameters
  have hflux : ∀ x, (c.withAdvection a : Model K dim states).totalFlux x =
      a.model.totalFlux x + c.model.totalFlux x := by
    intro x
    refine Flux.ext_get fun s d => ?_
    rw [Flux.get_add]
    exact (c.get_flux_withAdvection a _ _ s d).trans
      (congrArg₂ (· + ·) (a.get_flux_model _ _ s d).symm (c.get_flux_model _ _ s d).symm)
  -- All three are made with the same manufactured solution, so their fluxes can be compared.
  refine ⟨a.model, c.model, c.withAdvection a, rfl, rfl, rfl, hflux,
    fun x _ => Model.source_add hflux x, ?_, ?_, ?_⟩
  · exact Model.rowwise_of_flux (fun v _ => .ofFn fun d => v * a.velocity.get d)
      fun u gradient s => Column.ext_get fun d => by simp [a.get_flux_model]
  · exact Model.rowwise_of_flux (fun _ slope => .ofFn fun d => slope.get d * -c.coefficient)
      fun u gradient s => Column.ext_get fun d => by simp [c.get_flux_model]
  · exact Model.rowwise_of_flux
      (fun v slope => .ofFn fun d => v * a.velocity.get d + slope.get d * -c.coefficient)
      fun u gradient s => Column.ext_get fun d => by simp [c.get_flux_withAdvection]

end Equation

end DualHessian
