import DualHessian.Sparse.Compressed
import DualHessian.System.Closures

/-!
# Describing a system

A `Description` collects what a system given by closures is made of. `Description.build` makes the
part of the system that belongs to one rank: the degrees of freedom are divided into contiguous
blocks, and every column that the sparsity pattern couples to an owned row becomes a ghost. Of the
pattern the rank keeps the rows that it owns (`ownedRows`).
-/

namespace DualHessian

/-- What a system is made of, as far as it is given. -/
structure Description (α : Type) where
  /-- The residual. -/
  residual? : Option (ResidualRule α)
  /-- The second derivatives of the dual-weighted residual. -/
  hessian? : Option (HessianRule α)
  /-- The global sparsity pattern of the Hessian, which also gives the number of degrees of
  freedom. -/
  pattern? : Option Pattern
  /-- The initial solution, zero if it is not given. -/
  solution? : Option (List α)
  /-- The initial dual, zero if it is not given. -/
  dual? : Option (List α)

/-- The part of a system that belongs to one rank, with its initial state. -/
structure BuiltSystem (α : Type) where
  /-- The number of degrees of freedom. -/
  dofs : Nat
  /-- The degrees of freedom of this rank. -/
  partition : Partition dofs
  /-- The system. -/
  system : ClosureSystem α partition
  /-- The initial state. -/
  state : ClosureState α partition

namespace Description

variable {α : Type} [Arithmetic α]

/-- A part that has to be given. -/
def require {β : Type} (part : Option β) (cause : Cause) : Except Stop β :=
  match part with
  | some b => .ok b
  | none => .error (.failed (.of cause))

/-- A condition that has to hold. -/
def ensure (holds : Bool) (cause : Cause) : Except Stop Unit :=
  if holds then .ok () else .error (.failed (.of cause))

/-- A step that only breaks preconditions. -/
def checked {β : Type} (e : Except Violation β) : Except Stop β :=
  match e with
  | .ok b => .ok b
  | .error v => .error (.violated v)

/-- A step that only reports failures. -/
def reported {β : Type} (e : Except Failure β) : Except Stop β := e.mapError .failed

/-- The rows of a pattern that a rank owns; all others are empty. -/
def ownedRows {n : Nat} (pattern : Pattern) (p : Partition n) : Except Failure Pattern :=
  match Pattern.ofCompressed pattern.rows pattern.columns (pattern.compress p.owns) with
  | .ok rows => .ok rows
  | .error defect => .error (.wrap .ownedRows (.of (.patternDefect defect)))

/-- A global vector, zero if it is not given. -/
def vectorOr (n : Nat) (x : Option (List α)) : List α := x.getD (List.replicate n 0)

/-- The part of the system that belongs to a rank. -/
def build (d : Description α) (c : Place) : Except Stop (BuiltSystem α) := do
  let residual ← require d.residual? .missingResidual
  let pattern ← require d.pattern? .missingPattern
  let n := pattern.rows
  ensure (pattern.columns == n) (.patternNotSquare n pattern.columns)
  let solution := vectorOr n d.solution?
  let dual := vectorOr n d.dual?
  ensure (solution.length == n) (.solutionLength solution.length n)
  ensure (dual.length == n) (.dualLength dual.length n)
  let blocks ← checked (Partition.contiguous n c.rank c.size)
  let p ← checked (blocks.withGhosts pattern)
  let rows ← reported (ownedRows pattern p)
  let solution ← checked (LocalVector.ofList p solution)
  let dual ← checked (LocalVector.ofList p dual)
  return {
    dofs := n
    partition := p
    system := {
      place := c
      pattern := rows
      residual := residual
      hessian? := d.hessian? }
    state := {
      solution := solution
      dual := dual
      rightHandSide := .zeros p
      hessian? := none
      assemblies := 0 } }

end Description

end DualHessian
