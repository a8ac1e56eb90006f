import DualHessian.System.Discretization

/-!
# Systems given by closures

A `ClosureSystem` is a discretized system whose residual and Hessian are functions of the full
global state. Every rank evaluates them at the same state, put together from the values of all
owners and overlaid with the copies that the rank holds itself, and keeps the rows that concern it.

* `Closures` holds the functions.
* `ClosureState` is what changes: the vectors, the last Hessian, and the number of assemblies.
* `ClosureSystem.discretization` is the system as others see it.
* `Faults` say what is wrong with a system on purpose, `ClosureSystem.faulty` is the system with
  them.
-/

namespace DualHessian

/-- A residual as a function of the state, for any number of degrees of freedom. -/
abbrev ResidualRule (α : Type) :=
  (n : Nat) → Vector α n → Except Violation (Vector α n)

/-- A Hessian as a function of state and dual, for any number of degrees of freedom. -/
abbrev HessianRule (α : Type) :=
  (n : Nat) → Vector α n → Vector α n → Except Violation (SparseMatrix α)

/-- The part of a system given by closures that one rank holds. -/
structure ClosureSystem (α : Type) {n : Nat} (p : Partition n) where
  /-- The place of this rank. -/
  place : Place
  /-- The positions of the owned rows at which the Hessian may differ from zero. -/
  pattern : Pattern
  /-- The residual. -/
  residual : ResidualRule α
  /-- The second derivatives of the dual-weighted residual, if they are known. -/
  hessian? : Option (HessianRule α)

/-- The changing part of a system given by closures. -/
structure ClosureState (α : Type) {n : Nat} (p : Partition n) where
  /-- The solution. -/
  solution : LocalVector α p
  /-- The dual. -/
  dual : LocalVector α p
  /-- The residual of the last assembly. -/
  rightHandSide : LocalVector α p
  /-- The last Hessian assembled. -/
  hessian? : Option (RowMatrix α p)
  /-- The number of residuals assembled. -/
  assemblies : Nat

namespace LocalVector

variable {α : Type} {n : Nat} {p : Partition n}

/-- A global vector where the relevant entries are those of a rank. -/
def overlay (v : LocalVector α p) (x : Vector α n) : Vector α n :=
  v.entries.foldl (fun x e => x.setIfInBounds e.1 e.2) x

end LocalVector

namespace ClosureSystem

variable {α : Type} [Arithmetic α] {P : Interface} {n : Nat} {p : Partition n}

/-- A computation that only breaks preconditions, as a step of a system. -/
def check {β σ : Type} (e : Except Violation β) : Stateful σ α P β :=
  match e with
  | .ok b => pure b
  | .error v => throw (.violated v)

/-- The global state that this rank evaluates the closures at. -/
def globalState : Stateful (ClosureState α p) α P (Vector α n) := do
  let s ← get
  let x ← (s.solution.global : Task α P (Vector α n))
  return s.solution.overlay x

/-- The failure for a Hessian of the wrong shape. -/
def shapeFailure (n : Nat) (H : SparseMatrix α) : Failure :=
  .wrap .invalidHessian (.of (.conflict (.shape (n, n) (H.rows, H.columns))))

/-- The owned rows of a Hessian, if it has the right shape. -/
def ownRows (p : Partition n) (H : SparseMatrix α) : Except Failure (RowMatrix α p) :=
  if H.rows = n ∧ H.columns = n then
    match RowMatrix.ofGlobal p H with
    | .ok A => .ok A
    | .error c => .error (.of (.conflict c))
  else
    .error (shapeFailure n H)

/-- Assembles the Hessian at a global state. -/
def assembleHessian (S : ClosureSystem α p) (state : Vector α n) :
    Stateful (ClosureState α p) α P Unit := do
  match S.hessian? with
  | none => throw (.failed (.of .noHessianGiven))
  | some rule =>
    let s ← get
    let dual ← (s.dual.global : Task α P (Vector α n))
    let H ← check (rule n state dual)
    match ownRows p H with
    | .ok A => modify fun s => { s with hessian? := some A }
    | .error f => throw (.failed f)

/-- Assembles the residual at the solution, and the Hessian if it is asked for. -/
def assemble (S : ClosureSystem α p) (request : Derivatives) :
    Stateful (ClosureState α p) α P Unit := do
  if request.wantsJacobian then
    throw (.failed (.of .noJacobian))
  else
    modify fun s => { s with assemblies := s.assemblies + 1 }
    let state ← globalState
    let residual ← check (S.residual n state)
    modify fun s => { s with rightHandSide := .ofVector p residual }
    if request.hessian then
      S.assembleHessian state

/-- The system as a discretization. -/
def discretization (S : ClosureSystem α p) : Discretization (ClosureState α p) α P p where
  place := S.place
  pattern := S.pattern
  solution s := s.solution
  setSolution v s := { s with solution := v }
  dual s := s.dual
  setDual v s := { s with dual := v }
  rightHandSide s := s.rightHandSide
  hessian? s := s.hessian?
  assemble := S.assemble

end ClosureSystem

namespace Discretization

variable {σ α : Type} {P : Interface} {n : Nat} {p : Partition n}

/-- The system whose assemblies of the given numbers, counted from one, fail after their work. The
state counts the assemblies asked for. -/
def failingAt (D : Discretization σ α P p) (calls : List Nat) :
    Discretization (Nat × σ) α P p where
  place := D.place
  pattern := D.pattern
  solution s := D.solution s.2
  setSolution v s := (s.1, D.setSolution v s.2)
  dual s := D.dual s.2
  setDual v s := (s.1, D.setDual v s.2)
  rightHandSide s := D.rightHandSide s.2
  hessian? s := D.hessian? s.2
  assemble request := ExceptT.mk fun (count, s) => do
    let call := count + 1
    let (result, s) ← (D.assemble request).run s
    match result with
    | .ok () =>
      if calls.contains call then
        return (.error (.failed (.of (.assembly call))), (call, s))
      else
        return (.ok (), (call, s))
    | .error stop => return (.error stop, (call, s))

/-- The system that never shows a Hessian. -/
def withoutHessian (D : Discretization σ α P p) : Discretization σ α P p :=
  { D with hessian? := fun _ => none }

end Discretization

/-- What is wrong with a system on purpose. -/
structure Faults where
  /-- The numbers of the assemblies that fail after their work. -/
  calls : List Nat
  /-- Whether the Hessian is never shown. -/
  hidesHessian : Bool
deriving DecidableEq, Repr

/-- Nothing is wrong. -/
def Faults.none : Faults := ⟨[], false⟩

/-- The system as a discretization with faults. -/
def ClosureSystem.faulty {α : Type} [Arithmetic α] {P : Interface} {n : Nat} {p : Partition n}
    (S : ClosureSystem α p) (faults : Faults) : Discretization (Nat × ClosureState α p) α P p :=
  let D := S.discretization.failingAt faults.calls
  if faults.hidesHessian then D.withoutHessian else D

end DualHessian
