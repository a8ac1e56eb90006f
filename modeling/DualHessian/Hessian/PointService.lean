import DualHessian.Hessian.Assembly

/-!
# A service for a given function

A `PointService` takes samples of a function of finitely many variables at a fixed point: it adds
the perturbations to the point and averages the values of all ranks. It remembers what it is asked
for, and it can be told to fail on purpose.
-/

namespace DualHessian

/-- A service that samples a function around a point. -/
structure PointService (α : Type) where
  /-- The place of this rank. -/
  place : Place
  /-- The function. -/
  value : List α → Except Violation α
  /-- The point. -/
  base : List α
  /-- The numbers of the samples that fail, counted from one. -/
  failCalls : List Nat
  /-- The perturbed indices of samples that fail. -/
  failIndices? : Option (List Nat)
  /-- The rank on which samples fail; all ranks, if none is given. -/
  failRank? : Option Nat

namespace PointService

variable {α : Type} [Arithmetic α] {P : Interface}

/-- The point with perturbations added one after the other. -/
def perturbed (base : List α) (perturbations : List (Perturbation α)) :
    Except Violation (List α) :=
  perturbations.foldlM (fun x d =>
    match x[d.index]? with
    | some y => .ok (x.set d.index (y + d.offset))
    | none => .error .noSuchEntry) base

/-- The function at the perturbed point. -/
def valueAt (S : PointService α) (perturbations : List (Perturbation α)) : Except Violation α := do
  S.value (← perturbed S.base perturbations)

/-- Whether a sample of a given number fails on this rank. -/
def fails (S : PointService α) (call : Nat) (perturbations : List (Perturbation α)) : Bool :=
  (S.failRank?.all (· == S.place.rank)) &&
    (S.failCalls.contains call || S.failIndices? == some (perturbations.map (·.index)))

/-- Takes a sample. The state lists the samples asked for, in order. -/
def sample (S : PointService α) : Sampler (List (List (Perturbation α))) α P :=
  fun perturbations => do
    modify (· ++ [perturbations])
    let call := (← get).length
    match S.valueAt perturbations with
    | .error v => throw (.violated v)
    | .ok value =>
      let total ← (sumOverRanks value : Task α P α)
      if S.fails call perturbations then
        throw (.failed (.of (.sample call S.place.rank)))
      else
        return total / whole S.place.size

end PointService

end DualHessian
