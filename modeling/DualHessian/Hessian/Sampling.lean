import DualHessian.Differences.SecondOrder
import DualHessian.Rank.Collective

/-!
# Sampling a mixed derivative

The dual-weighted residual is known only through samples: its values at perturbed states. A program
that needs samples asks for them through the interface `Sampling`, and notes there what it has
achieved.

* `gridSamples` asks for the samples at all perturbations of the grid, in the same order for every
  pair of indices and also after a sample has failed, so that all ranks ask for the same samples.
* `evaluate` is the mixed derivative estimated from them.
* `Sampler.answer` serves such a program from a service that can take samples.
-/

namespace DualHessian

/-- An offset added to one entry of the state. -/
structure Perturbation (α : Type) where
  /-- The index of the entry. -/
  index : Nat
  /-- The offset. -/
  offset : α
deriving DecidableEq, Repr

/-- A step for differences: a positive finite number. -/
structure Step (α : Type) [Zero α] [Magnitude α] where
  /-- The number. -/
  size : α
  /-- It is positive and finite. -/
  admissible : (Magnitude.less 0 size && Magnitude.finite size) = true

/-- The step of the given size, if the number is positive and finite. -/
def Step.ofSize {α : Type} [Zero α] [Magnitude α] (size : α) : Except Violation (Step α) :=
  if h : (Magnitude.less 0 size && Magnitude.finite size) = true then .ok ⟨size, h⟩
  else .error .stepNotPositive

/-- What the assembly of a matrix of derivatives notes. -/
inductive Progress (α : Type) where
  /-- A row of the matrix is begun. -/
  | row (index rows : Nat)
  /-- A derivative is too small to be stored. -/
  | dropped (row column : Nat) (value : α)
  /-- A derivative is stored. -/
  | kept (row column : Nat) (value : α)
  /-- All derivatives are estimated. -/
  | finished (evaluated dropped : Nat) (tolerance : α)
deriving DecidableEq, Repr

/-- What can be asked of the surroundings of an assembly. -/
inductive Sampling.Request (α : Type) where
  /-- To note what has been achieved. -/
  | note (progress : Progress α)
  /-- To take a sample at the state with the perturbations added in order. -/
  | sample (perturbations : List (Perturbation α))

/-- The interface of an assembly: a sample is a number, or the reason why it failed on this rank. -/
def Sampling (α : Type) : Interface where
  Request := Sampling.Request α
  Reply
    | .note _ => Unit
    | .sample _ => Except Failure α

section Programs

variable {α : Type} [Arithmetic α]

/-- Notes what has been achieved. -/
def note (progress : Progress α) : Program α (Sampling α) Unit :=
  Program.ask (.note progress) fun () => .done ()

/-- Takes a sample. -/
def takeSample (perturbations : List (Perturbation α)) :
    Program α (Sampling α) (Except Failure α) :=
  Program.ask (.sample perturbations) fun (reply : Except Failure α) => .done reply

/-- The perturbations for multiples of the step at two indices. -/
def gridPerturbations (h : α) (i j : Nat) (d : Int × Int) : List (Perturbation α) :=
  [⟨i, whole d.1 * h⟩, ⟨j, whole d.2 * h⟩]

/-- The samples at all perturbations of the grid, or the first failure among them. -/
def gridSamples (h : α) (i j : Nat) : Program α (Sampling α) (Except Failure (List α)) := do
  let replies ← grid.mapM fun d => takeSample (gridPerturbations h i j d)
  return replies.mapM id

/-- The mixed derivative at two indices. -/
def evaluate (h : α) (i j : Nat) : Program α (Sampling α) (Except Failure α) := do
  let samples ← gridSamples h i j
  return samples.map fun values => Stencil.fourthOrder.combine (onGridOf values) h

end Programs

/-- A service that takes samples. -/
abbrev Sampler (σ α : Type) (P : Interface) := List (Perturbation α) → Stateful σ α P α

namespace Sampler

variable {σ α β : Type} {P : Interface}

/-- The outcome of a computation that may fail. Broken preconditions stay what they are. -/
def outcome (action : Stateful σ α P β) : Stateful σ α P (Except Failure β) := ExceptT.mk do
  match ← action.run with
  | .ok b => return .ok (.ok b)
  | .error (.failed f) => return .ok (.error f)
  | .error (.violated v) => return .error (.violated v)

/-- The replies of a service to an assembly; `record` takes its notes. -/
def answer (sample : Sampler σ α P) (record : Progress α → Stateful σ α P Unit) :
    (q : (Sampling α).Request) → Stateful σ α P ((Sampling α).Reply q)
  | .note progress => record progress
  | .sample perturbations => outcome (sample perturbations)

/-- Runs a program that needs samples with a service that takes them. -/
def runProgram (sample : Sampler σ α P) (record : Progress α → Stateful σ α P Unit)
    (program : Program α (Sampling α) β) : Stateful σ α P β :=
  program.serve (sample.answer record)

/-- Runs a task that needs samples with a service that takes them. -/
def runTask (sample : Sampler σ α P) (record : Progress α → Stateful σ α P Unit)
    (task : Task α (Sampling α) β) : Stateful σ α P β := do
  match ← sample.runProgram record task.run with
  | .ok b => return b
  | .error stop => throw stop

/-- The service that also counts the samples it is asked for. -/
def counted (sample : Sampler σ α P) : Sampler (Nat × σ) α P := fun perturbations =>
  ExceptT.mk fun (count, s) => do
    let (result, s) ← (sample perturbations).run s
    return (result, (count + 1, s))

end Sampler

end DualHessian
