import DualHessian.Hessian.Assembly
import DualHessian.System.Discretization
import DualHessian.Verify.Console
import DualHessian.Verify.Settings

/-!
# Verifying the Hessian of a system

`verify` compares the Hessian that a system assembles with the one obtained by differences of its
dual-weighted residual. The reference is assembled before the differences are taken and once more
afterwards, at the restored solution; the latter is compared. Both matrices and their difference are
written to files, whatever the verdict.
-/

namespace DualHessian

/-- The names of the files for the matrix obtained by differences, the reference, and the difference
of the two. -/
def dumpNames : String × String × String :=
  ("FD_matrix.dat", "AD_matrix.dat", "FD_minus_AD_matrix.dat")

section Dumps

variable {α : Type} [Arithmetic α] {n : Nat} {p : Partition n}

/-- Collects the three matrices on all ranks and writes them on the first one. -/
def dump (c : Place) (directory : String) (digits : Nat)
    (differences reference discrepancy : RowMatrix α p) : Task α (Console α) Unit := do
  let differences ← differences.dense
  let reference ← reference.dense
  let discrepancy ← discrepancy.dense
  if c.isRoot then
    Console.createDirectory directory
    Console.writeMatrix (Disk.join directory dumpNames.1) differences digits
    Console.writeMatrix (Disk.join directory dumpNames.2.1) reference digits
    Console.writeMatrix (Disk.join directory dumpNames.2.2) discrepancy digits

end Dumps

namespace Discretization

variable {σ α : Type} [Arithmetic α] [Magnitude α] {n : Nat} {p : Partition n}

/-- Runs a computation whose failures are seen from outside as the given cause. -/
def within {β τ : Type} {P : Interface} (cause : Cause) (action : Stateful τ α P β) :
    Stateful τ α P β := ExceptT.mk do
  match ← action.run with
  | .error (.failed f) => return .error (.failed (f.wrap cause))
  | result => return result

/-- Tells an event on the first rank. -/
def tellOnRoot (D : Discretization σ α (Console α) p) (event : Event α) :
    Task α (Console α) Unit :=
  if D.place.isRoot then Console.tell event else pure ()

/-- Tells the progress of an assembly. -/
def recordProgress {τ : Type} (progress : Progress α) : Stateful τ α (Console α) Unit :=
  (Console.tell (.assembling progress) : Task α (Console α) Unit)

/-- The Hessian obtained by differences on the positions of a pattern. -/
def differenceMatrix (D : Discretization σ α (Console α) p) (a : Assembler α)
    (pattern : Occupancy) : Stateful σ α (Console α) (RowMatrix α p) :=
  D.sample.runTask recordProgress (a.assemble D.place p pattern)

/-- Assembles the reference Hessian. -/
def assembleReference (D : Discretization σ α (Console α) p) : Stateful σ α (Console α) Unit :=
  within .reference (D.assemble .withHessian)

/-- Sets every entry of the dual to one, if that is the choice. -/
def initializeDual (D : Discretization σ α (Console α) p) :
    DualChoice → Stateful σ α (Console α) Unit
  | .unit => modify fun s => D.setDual ((D.dual s).fill 1) s
  | .keep => pure ()

/-- Tells what the comparison has found. -/
def tellReport (D : Discretization σ α (Console α) p) (report : Report α) :
    Task α (Console α) Unit := do
  D.tellOnRoot (.norms report.referenceNorm report.differencesNorm)
  D.tellOnRoot (.compared report)
  unless report.passed do
    D.tellOnRoot (.exceeds report.relativeColumn report.tolerance)

/-- The Hessian obtained by differences and the reference, at the same solution. -/
def bothMatrices (D : Discretization σ α (Console α) p) (settings : Settings α) :
    Stateful σ α (Console α) (RowMatrix α p × RowMatrix α p) := do
  D.initializeDual settings.dual
  -- A system that fails to assemble its Hessian is found before any time goes into differences.
  D.assembleReference
  match Step.ofSize settings.step with
  | .error v => throw (.violated v)
  | .ok step =>
    let differences ← within .differences
      (D.differenceMatrix ⟨step, settings.dropTolerance⟩ D.pattern.occupancy)
    -- The samples have assembled residuals in between; the Hessian compared is a fresh one.
    D.assembleReference
    match D.hessian? (← get) with
    | some reference => return (differences, reference)
    | none => throw (.failed (.of .noHessianAssembled))

/-- Compares two matrices, writes them to files, and tells the outcome. -/
def judge [SquareRoot α] (D : Discretization σ α (Console α) p) (settings : Settings α)
    (differences reference : RowMatrix α p) : Task α (Console α) (Report α) := do
  match ← compare settings.tolerances differences reference with
  | .error conflict => throw (.failed (.of (.conflict conflict)))
  | .ok (report, discrepancy) =>
    -- The files are written before the verdict is told, so they are there for either verdict.
    dump D.place settings.directory settings.digits differences reference discrepancy
    D.tellReport report
    return report

/-- Verifies the Hessian of a system. -/
def verify [SquareRoot α] (D : Discretization σ α (Console α) p) (settings : Settings α) :
    Stateful σ α (Console α) (Report α) := do
  (D.tellOnRoot (.dofs n) : Task α (Console α) Unit)
  let (differences, reference) ← D.bothMatrices settings
  (D.judge settings differences reference : Task α (Console α) (Report α))

end Discretization

end DualHessian
