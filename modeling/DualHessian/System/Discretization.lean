import DualHessian.Distributed.Matrix
import DualHessian.Distributed.Vector
import DualHessian.Hessian.Sampling

/-!
# Discretized systems

A `Discretization` is what the verification of a Hessian needs of a discretized system on one rank:
a solution and a dual that can be read and replaced, and a collective assembly of the residual that
may fail. The state of the system is a type `σ` of its own.

* `withPerturbation` runs a computation while offsets are added to entries of the solution, and puts
  the entries back whatever the outcome.
* `sample` is the inner product of dual and residual at a perturbed solution.
-/

namespace DualHessian

/-- Which derivatives an assembly computes besides the residual. -/
structure Derivatives where
  /-- The Jacobian. -/
  jacobian : Bool
  /-- The transposed Jacobian. -/
  jacobianTranspose : Bool
  /-- The second derivatives of the dual-weighted residual. -/
  hessian : Bool
deriving DecidableEq, Repr

namespace Derivatives

/-- Only the residual. -/
def residualOnly : Derivatives := ⟨false, false, false⟩

/-- The residual and the Hessian. -/
def withHessian : Derivatives := ⟨false, false, true⟩

/-- Whether a Jacobian is asked for. -/
def wantsJacobian (request : Derivatives) : Bool :=
  request.jacobian || request.jacobianTranspose

end Derivatives

/-- A discretized system on a rank with partition `p`, with states of type `σ`. -/
structure Discretization (σ α : Type) (P : Interface) {n : Nat} (p : Partition n) where
  /-- The place of this rank. -/
  place : Place
  /-- The positions at which the Hessian may differ from zero, as far as this rank knows. -/
  pattern : Pattern
  /-- The solution at which the residual is assembled. -/
  solution : σ → LocalVector α p
  /-- Replaces the solution. -/
  setSolution : LocalVector α p → σ → σ
  /-- The dual. -/
  dual : σ → LocalVector α p
  /-- Replaces the dual. -/
  setDual : LocalVector α p → σ → σ
  /-- The residual of the last assembly. -/
  rightHandSide : σ → LocalVector α p
  /-- The Hessian of the last assembly that was asked for one. -/
  hessian? : σ → Option (RowMatrix α p)
  /-- Assembles the residual at the solution, and the derivatives asked for. -/
  assemble : Derivatives → Stateful σ α P Unit

namespace LocalVector

variable {α : Type} {n : Nat} {p : Partition n}

/-- The vector with offsets added to its entries, one after the other. Indices that are not relevant
are passed over. -/
def perturb [Add α] (v : LocalVector α p) (perturbations : List (Perturbation α)) :
    LocalVector α p :=
  perturbations.foldl (fun v d => v.modify d.index (· + d.offset)) v

/-- The relevant indices among those perturbed, each once, in the order in which they first
occur. -/
def perturbedIndices (v : LocalVector α p) (perturbations : List (Perturbation α)) : List Nat :=
  perturbations.foldl (fun is d =>
    if (v.get? d.index).isSome && !is.contains d.index then is ++ [d.index] else is) []

/-- The values at the perturbed indices. -/
def perturbedEntries (v : LocalVector α p) (perturbations : List (Perturbation α)) :
    List (Nat × α) :=
  (v.perturbedIndices perturbations).filterMap fun i => (v.get? i).map fun x => (i, x)

end LocalVector

namespace Discretization

variable {σ α β : Type} {P : Interface} {n : Nat} {p : Partition n}

/-- The system with a change to its solution. -/
def changeSolution (D : Discretization σ α P p) (change : LocalVector α p → LocalVector α p)
    (s : σ) : σ :=
  D.setSolution (change (D.solution s)) s

/-- Runs a computation while offsets are added to the solution. Afterwards the perturbed entries
hold their former values again, also if the computation stops early. -/
def withPerturbation [Add α] (D : Discretization σ α P p) (perturbations : List (Perturbation α))
    (action : Stateful σ α P β) : Stateful σ α P β := ExceptT.mk fun s => do
  let saved := (D.solution s).perturbedEntries perturbations
  let (result, s) ← action.run (D.changeSolution (·.perturb perturbations) s)
  return (result, D.changeSolution (·.setAll saved.reverse) s)

variable [Arithmetic α]

/-- The inner product of dual and residual at the perturbed solution. -/
def sample (D : Discretization σ α P p) : Sampler σ α P := fun perturbations =>
  D.withPerturbation perturbations do
    D.assemble .residualOnly
    let s ← get
    ((D.rightHandSide s).dot (D.dual s) : Task α P α)

end Discretization

end DualHessian
