import DualHessian.Differences.FirstOrder
import DualHessian.Physics.Manufactured

/-!
# Conservation laws

A `Model` is a conservation law `∇ · (convective u + dissipative u ∇u) = source`, where the source
is chosen so that a manufactured solution satisfies it. Fluxes have one row per state and one column
per direction.
-/

namespace DualHessian

/-- The fluxes of a conservation law and the solution manufactured for it. -/
structure Model (α : Type) (dim states : Nat) where
  /-- The convective flux of a state. -/
  convective : Vector α states → Flux α dim states
  /-- The eigenvalues of the derivative of the convective flux along a normal. -/
  eigenvalues : Vector α states → Vector α dim → Vector α states
  /-- The largest magnitude of an eigenvalue over all unit normals. -/
  maxEigenvalue : Vector α states → α
  /-- The dissipative flux of a state with a gradient. -/
  dissipative : Vector α states → Flux α dim states → Flux α dim states
  /-- The manufactured solution. -/
  manufactured : Manufactured α dim states

namespace Model

variable {α : Type} [Arithmetic α] {dim states : Nat}

/-- The convective and the dissipative flux together. -/
def flux (P : Model α dim states) (u : Vector α states) (gradient : Flux α dim states) :
    Flux α dim states :=
  P.convective u + P.dissipative u gradient

variable [Trigonometry α]

/-- The flux of the manufactured solution at a point. -/
def totalFlux (P : Model α dim states) (x : Vector α dim) : Flux α dim states :=
  P.flux (P.manufactured.value x) (P.manufactured.gradient x)

/-- The step in space with which the flux of the manufactured solution is differentiated. -/
def sourceStep : α := ratio 1 1000

/-- The derivative of one column of the manufactured flux in its own direction. -/
def columnDerivative (P : Model α dim states) (x : Vector α dim) (d : Fin dim) :
    Vector α states :=
  let along (t : α) : Flux α 1 states :=
    .ofColumn ((P.totalFlux (x.set d t d.isLt)).column d)
  Flux.onlyColumn (Id.run (derivative along (x.get d) sourceStep))

/-- The source term: the divergence of the flux of the manufactured solution. -/
def source (P : Model α dim states) (x : Vector α dim) : Vector α states :=
  (List.finRange dim).foldl (fun total d => total + P.columnDerivative x d) (.replicate states 0)

/-- The source term at a point where the solution has a value. It is that of the manufactured
solution, whatever the value is. -/
def sourceTerm (P : Model α dim states) (x : Vector α dim) (_value : Vector α states) :
    Vector α states :=
  P.source x

end Model

end DualHessian
