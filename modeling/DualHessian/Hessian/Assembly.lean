import DualHessian.Distributed.Matrix
import DualHessian.Hessian.Sampling

/-!
# Assembling the Hessian by differences

`Assembler.assemble` estimates all second derivatives of the dual-weighted residual that belong to
a sparsity pattern. The ranks see different parts of the pattern, so they agree on every pair
`i ≤ j` before they evaluate it, and they agree afterwards on whether a sample has failed somewhere.
Each rank deposits the values of the rows that it owns, on both sides of the diagonal.
-/

namespace DualHessian

/-- How second derivatives are estimated and which of them are stored. -/
structure Assembler (α : Type) [Zero α] [Magnitude α] where
  /-- The step of the differences. -/
  step : Step α
  /-- Derivatives of smaller magnitude are not stored. -/
  dropTolerance : α

/-- What a rank has found so far. -/
structure Tally (α : Type) (n : Nat) where
  /-- The derivatives to store, for pairs `i ≤ j`, in the order of the pairs. -/
  kept : List (Fin n × Fin n × α)
  /-- The number of derivatives estimated. -/
  evaluated : Nat
  /-- The number of derivatives too small to be stored. -/
  dropped : Nat

namespace Tally

variable {α : Type} {n : Nat}

/-- Nothing found yet. -/
def empty : Tally α n := ⟨[], 0, 0⟩

/-- One more derivative to store. -/
def keep (t : Tally α n) (i j : Fin n) (value : α) : Tally α n :=
  { t with kept := t.kept ++ [(i, j, value)], evaluated := t.evaluated + 1 }

/-- One more derivative that is too small. -/
def drop (t : Tally α n) : Tally α n :=
  { t with evaluated := t.evaluated + 1, dropped := t.dropped + 1 }

/-- The entries of a derivative in the rows that a rank owns: at its position, and off the diagonal
at the transposed position. -/
def ownEntries (p : Partition n) (i j : Fin n) (value : α) : List (Entry α) :=
  (if p.owns i then [⟨i, j, value⟩] else []) ++
    if i ≠ j ∧ p.owns j = true then [⟨j, i, value⟩] else []

/-- The deposits of a rank. -/
def deposits (t : Tally α n) (p : Partition n) : Deposits α p where
  columns := n
  entries := t.kept.flatMap fun (i, j, value) => ownEntries p i j value
  bounded := by
    intro e he
    -- Both entries of a pair take their row and column from the pair, which is below `n`.
    obtain ⟨⟨i, j, value⟩, _, he⟩ := List.mem_flatMap.1 he
    simp only [ownEntries, List.mem_append, List.mem_ite_nil_right, List.mem_singleton] at he
    rcases he with ⟨_, rfl⟩ | ⟨_, rfl⟩
    · exact ⟨i.isLt, j.isLt⟩
    · exact ⟨j.isLt, i.isLt⟩

end Tally

namespace Assembler

variable {α : Type} [Arithmetic α] [Magnitude α] {n : Nat}

/-- A note of the first rank. -/
def noteOnRoot (c : Place) (progress : Progress α) : Task α (Sampling α) Unit :=
  if c.isRoot then ExceptT.lift (note progress) else pure ()

/-- The failure that a rank reports when some rank could not evaluate a pair. -/
def failureAt (i j : Nat) : Except Failure α → Failure
  | .error f => f.wrap (.entry i j)
  | .ok _ => .of (.entryElsewhere i j)

/-- Takes an estimated derivative into the tally. -/
def take (a : Assembler α) (i j : Fin n) (value : α) (t : Tally α n) :
    Task α (Sampling α) (Tally α n) :=
  if Magnitude.less (Magnitude.abs value) a.dropTolerance then do
    ExceptT.lift (note (.dropped i j value))
    return t.drop
  else do
    ExceptT.lift (note (.kept i j value))
    return t.keep i j value

/-- Evaluates one pair, if it belongs to the pattern of some rank. -/
def visit (a : Assembler α) (pattern : Occupancy) (i j : Fin n) (t : Tally α n) :
    Task α (Sampling α) (Tally α n) := do
  -- Every rank has to take the same branch, or some would wait for the others in the samples.
  if ← onAnyRank (pattern.holds i j) then
    let result ← ExceptT.lift (evaluate a.step.size i j)
    -- A sample may fail on one rank only; all ranks stop together.
    if ← onAnyRank (!result.isOk) then
      throw (.failed (failureAt i j result))
    else
      match result with
      | .ok value => a.take i j value t
      | .error f => throw (.failed f)
  else
    return t

/-- Evaluates the pairs of one row from the diagonal on. -/
def visitRow (a : Assembler α) (c : Place) (pattern : Occupancy) (t : Tally α n)
    (i : Fin n) : Task α (Sampling α) (Tally α n) := do
  noteOnRoot c (.row i n)
  ((List.finRange n).filter fun j => decide (i ≤ j)).foldlM (fun t j => a.visit pattern i j t) t

/-- Evaluates all pairs, row by row. -/
def visitAll (a : Assembler α) (c : Place) (pattern : Occupancy) :
    Task α (Sampling α) (Tally α n) :=
  (List.finRange n).foldlM (a.visitRow c pattern) .empty

/-- The matrix of second derivatives on a sparsity pattern, which has to fit the degrees of
freedom. -/
def assemble (a : Assembler α) (c : Place) (p : Partition n) (pattern : Occupancy) :
    Task α (Sampling α) (RowMatrix α p) := do
  if pattern.rows = n ∧ pattern.columns = n then
    let t ← a.visitAll c pattern
    noteOnRoot c (.finished t.evaluated t.dropped a.dropTolerance)
    (t.deposits p).toMatrix
  else
    throw (.failed (.of (.patternShape pattern.rows pattern.columns n)))

end Assembler

end DualHessian
