import DualHessian.Proofs.Rank.Success
import DualHessian.System.Closures

/-!
# Watching a system

A system that also keeps the list of the states at which its residual has been evaluated. But for
that list it does what the system does.

* `Operation` is something that all ranks do to a system together, and `Discretization.performAll`
  does one after the other.
* `ClosureSystem.watched` is the watched system.
* `Stateful.Forgets` says that a computation does the same as another one but for what stands beside
  its state. `ClosureSystem.forgets_performAll` says this of all operations on the watched system.
-/

namespace DualHessian

/-! ## Operations -/

/-- Something that all ranks do to a system together. -/
inductive Operation (α : Type) where
  /-- To take a sample at a perturbed solution. -/
  | sample (perturbations : List (Perturbation α))
  /-- To assemble the residual, and the derivatives asked for. -/
  | assemble (request : Derivatives)
  /-- To set an entry of the solution. -/
  | write (index : Nat) (value : α)

namespace Discretization

variable {σ α : Type} [Arithmetic α] {P : Interface} {n : Nat} {p : Partition n}

/-- Does one operation. A sample has a value. -/
def perform (D : Discretization σ α P p) : Operation α → Stateful σ α P (Option α)
  | .sample perturbations => do
    let value ← D.sample perturbations
    return some value
  | .assemble request => do
    D.assemble request
    return none
  | .write index value => do
    modify (D.changeSolution (·.set index value))
    return none

/-- Does operations one after the other and returns how each of them has ended. One that has stopped
early does not keep the others from being done. -/
def performAll (D : Discretization σ α P p) (operations : List (Operation α)) :
    Stateful σ α P (List (Except Stop (Option α))) :=
  operations.mapM fun operation => ExceptT.lift (D.perform operation).run

end Discretization

/-! ## Beside a state -/

namespace Stateful

variable {σ τ α β γ : Type} {P : Interface}

/-- A computation beside something that it does not touch. -/
def beside (action : Stateful σ α P β) : Stateful (τ × σ) α P β := ExceptT.mk fun (t, s) => do
  let (result, s) ← action.run s
  return (result, (t, s))

/-- But for what stands beside the state, `watched` does what `plain` does. -/
def Forgets (watched : Stateful (τ × σ) α P β) (plain : Stateful σ α P β) : Prop :=
  ∀ t s, (fun out => (out.1, out.2.2)) <$> watched.run (t, s) = plain.run s

namespace Forgets

variable {watched : Stateful (τ × σ) α P β} {plain : Stateful σ α P β}

/-- Results are forgotten together with nothing. -/
theorem pure (b : β) : Forgets (Pure.pure b : Stateful (τ × σ) α P β) (Pure.pure b) :=
  fun _ _ => rfl

/-- Failures are the same with and without the record. -/
theorem throw (stop : Stop) : Forgets (MonadExcept.throw stop : Stateful (τ × σ) α P β)
    (MonadExcept.throw stop) :=
  fun _ _ => rfl

/-- An action beside the record is that action once the record is forgotten. -/
theorem beside (action : Stateful σ α P β) :
    Forgets (Stateful.beside action : Stateful (τ × σ) α P β) action := by
  intro t s
  show (fun out => (out.1, out.2.2)) <$> (do
    let (result, s) ← action.run s
    return (result, (t, s))) = action.run s
  rw [map_bind]
  exact Program.bind_done (action.run s)

/-- Actions that forget the record do so one after the other. -/
theorem bind {next : β → Stateful (τ × σ) α P γ} {next' : β → Stateful σ α P γ}
    (h : Forgets watched plain) (hnext : ∀ b, Forgets (next b) (next' b)) :
    Forgets (watched >>= next) (plain >>= next') := by
  intro t s
  show (fun out => (out.1, out.2.2)) <$> (watched.run (t, s) >>= fun out =>
    ExceptT.bindCont next out.1 out.2) = plain.run s >>= fun out =>
      ExceptT.bindCont next' out.1 out.2
  rw [map_bind, ← h t s, bind_map_left]
  refine congrArg (watched.run (t, s) >>= ·) (funext fun out => ?_)
  obtain ⟨result, t', s'⟩ := out
  cases result with
  | ok b => exact hnext b t' s'
  | error stop => rfl

/-- What is read of the state is the same. -/
theorem get_bind {next : τ × σ → Stateful (τ × σ) α P β} {next' : σ → Stateful σ α P β}
    (hnext : ∀ t s, Forgets (next (t, s)) (next' s)) : Forgets (get >>= next) (get >>= next') :=
  fun t s => hnext t s t s

/-- A change of both states forgets the record if it changes the plain state on its own. -/
theorem modify {f : τ × σ → τ × σ} {f' : σ → σ} (h : ∀ t s, (f (t, s)).2 = f' s) :
    Forgets (modifyThe (τ × σ) f : Stateful (τ × σ) α P PUnit) (modifyThe σ f') := by
  intro t s
  show Program.done (Except.ok PUnit.unit, (f (t, s)).2) = Program.done (Except.ok PUnit.unit, f' s)
  rw [h]

/-- What is noted beside the state is forgotten. -/
theorem note_bind {f : τ × σ → τ × σ} {next : PUnit → Stateful (τ × σ) α P β}
    (hf : ∀ t s, (f (t, s)).2 = s) (hnext : Forgets (next ⟨⟩) plain) :
    Forgets (modifyThe (τ × σ) f >>= next) plain := by
  intro t s
  have hstate : f (t, s) = ((f (t, s)).1, s) := Prod.ext rfl (hf t s)
  show (fun out => (out.1, out.2.2)) <$> (next ⟨⟩).run (f (t, s)) = plain.run s
  rw [hstate]
  exact hnext _ s

/-- A task does not touch the state. -/
theorem lift (task : Task α P β) :
    Forgets (MonadLift.monadLift task : Stateful (τ × σ) α P β) (MonadLift.monadLift task) := by
  intro t s
  show (fun out => (out.1, out.2.2)) <$> (do return (← task.run, (t, s))) =
    (do return (← task.run, s))
  rw [map_bind]
  rfl

/-- An action that catches its failures still forgets the record. -/
theorem attempt (h : Forgets watched plain) :
    Forgets (ExceptT.lift watched.run : Stateful (τ × σ) α P (Except Stop β))
      (ExceptT.lift plain.run) := by
  intro t s
  show (fun out => (out.1, out.2.2)) <$> (fun out => (Except.ok out.1, out.2)) <$>
    watched.run (t, s) = (fun out => (Except.ok out.1, out.2)) <$> plain.run s
  rw [← h t s, Functor.map_map, Functor.map_map]

/-- A loop forgets the record if each of its rounds does. -/
theorem mapM {δ : Type} {f : δ → Stateful (τ × σ) α P β} {f' : δ → Stateful σ α P β}
    (h : ∀ x, Forgets (f x) (f' x)) (xs : List δ) : Forgets (xs.mapM f) (xs.mapM f') := by
  induction xs with
  | nil =>
    simp only [List.mapM_nil]
    exact pure []
  | cons x xs ih =>
    simp only [List.mapM_cons]
    exact (h x).bind fun _ => ih.bind fun _ => pure _

end Forgets

end Stateful

namespace Group

variable {α τ δ : Type} {P : Interface} {size : Nat} {β σ : Fin size → Type} {R : Replies P size}
  {states : (r : Fin size) → τ × σ r}

/-- What stands beside the states stays as it is. -/
theorem Attains.beside {post : ((r : Fin size) → Except Stop (β r) × σ r) → Prop}
    {final : ((r : Fin size) → Except Stop (β r) × (τ × σ r)) → Prop}
    {actions : (r : Fin size) → Stateful (σ r) α P (β r)}
    (h : Attains R post fun r => (actions r).run (states r).2)
    (himp : ∀ out, post out → final fun r => ((out r).1, ((states r).1, (out r).2))) :
    Attains R final fun r => (actions r).beside.run (states r) :=
  h.bind (fun r out => .done (out.1, ((states r).1, out.2))) fun _ hout => .done _ (himp _ hout)

/-- What all ranks do, they do beside their records as well, and the records stay. -/
theorem Proceeds.beside {post : ((r : Fin size) → β r) → ((r : Fin size) → σ r) → Prop}
    {actions : (r : Fin size) → Stateful (σ r) α P (β r)}
    (h : Proceeds R (fun r => (states r).2) post actions) :
    Proceeds R states
      (fun b s => post b (fun r => (s r).2) ∧ ∀ r, (s r).1 = (states r).1)
      fun r => (actions r).beside := by
  apply Attains.beside h
  rintro _ ⟨b, s, hpost, rfl⟩
  exact ⟨b, fun r => ((states r).1, s r), ⟨hpost, fun _ => rfl⟩, rfl⟩

/-- How all ranks conclude, they conclude beside their records as well. -/
theorem Concludes.beside {post : Except Stop δ → ((r : Fin size) → σ r) → Prop}
    {actions : (r : Fin size) → Stateful (σ r) α P δ}
    (h : Concludes R (fun r => (states r).2) post actions) :
    Concludes R states
      (fun result s => post result (fun r => (s r).2) ∧ ∀ r, (s r).1 = (states r).1)
      fun r => (actions r).beside := by
  apply Attains.beside h
  rintro _ ⟨result, s, hpost, rfl⟩
  exact ⟨result, fun r => ((states r).1, s r), ⟨hpost, fun _ => rfl⟩, rfl⟩

/-- A group proceeds without what stands beside its states as it does with it. -/
theorem Proceeds.forget {post : ((r : Fin size) → β r) → ((r : Fin size) → σ r) → Prop}
    {watched : (r : Fin size) → Stateful (τ × σ r) α P (β r)}
    {plain : (r : Fin size) → Stateful (σ r) α P (β r)}
    (hforgets : ∀ r, Stateful.Forgets (watched r) (plain r))
    (h : Proceeds R states (fun b s => post b fun r => (s r).2) watched) :
    Proceeds R (fun r => (states r).2) post plain := by
  have hplain : (fun r => (plain r).run (states r).2) =
      fun r => (fun out => (out.1, out.2.2)) <$> (watched r).run (states r) :=
    funext fun r => (hforgets r (states r).1 (states r).2).symm
  unfold Proceeds
  rw [hplain]
  apply Attains.map h (fun _ out => (out.1, out.2.2))
  rintro _ ⟨b, s, hpost, rfl⟩
  exact ⟨b, fun r => (s r).2, hpost, rfl⟩

end Group

/-! ## Systems -/

namespace Discretization

open Stateful

variable {σ τ α : Type} {P : Interface} {n : Nat} {p : Partition n}

/-- The system with something beside its state that only its assemblies touch. -/
def watching (D : Discretization σ α P p)
    (assemble : Derivatives → Stateful (τ × σ) α P Unit) : Discretization (τ × σ) α P p where
  place := D.place
  pattern := D.pattern
  solution s := D.solution s.2
  setSolution v s := (s.1, D.setSolution v s.2)
  dual s := D.dual s.2
  setDual v s := (s.1, D.setDual v s.2)
  rightHandSide s := D.rightHandSide s.2
  hessian? s := D.hessian? s.2
  assemble := assemble

variable [Arithmetic α] {D : Discretization σ α P p}
  {assemble : Derivatives → Stateful (τ × σ) α P Unit}

/-- A perturbed run of the watched system is one of the system itself. -/
theorem forgets_withPerturbation {β : Type} {watched : Stateful (τ × σ) α P β}
    {plain : Stateful σ α P β} (perturbations : List (Perturbation α))
    (h : Forgets watched plain) :
    Forgets ((D.watching assemble).withPerturbation perturbations watched)
      (D.withPerturbation perturbations plain) := by
  intro t s
  show (fun out => (out.1, out.2.2)) <$> (do
    let out ← watched.run (t, D.changeSolution (·.perturb perturbations) s)
    return (out.1, (out.2.1, D.changeSolution
      (·.setAll ((D.solution s).perturbedEntries perturbations).reverse) out.2.2))) = (do
    let out ← plain.run (D.changeSolution (·.perturb perturbations) s)
    return (out.1, D.changeSolution
      (·.setAll ((D.solution s).perturbedEntries perturbations).reverse) out.2))
  rw [map_bind, ← h t, bind_map_left]
  rfl

variable (h : ∀ request, Forgets (assemble request) (D.assemble request))

include h

/-- So is a sample. -/
theorem forgets_sample (perturbations : List (Perturbation α)) :
    Forgets ((D.watching assemble).sample perturbations) (D.sample perturbations) := by
  refine forgets_withPerturbation perturbations ((h .residualOnly).bind fun _ => ?_)
  exact .get_bind fun t s => .lift ((D.rightHandSide s).dot (D.dual s))

/-- So is every operation. -/
theorem forgets_perform (operation : Operation α) :
    Forgets ((D.watching assemble).perform operation) (D.perform operation) := by
  cases operation with
  | sample perturbations => exact (forgets_sample h perturbations).bind fun _ => .pure _
  | assemble request => exact (h request).bind fun _ => .pure _
  | write index value => exact (Forgets.modify fun _ _ => rfl).bind fun _ => .pure _

/-- So is every list of operations. -/
theorem forgets_performAll (operations : List (Operation α)) :
    Forgets ((D.watching assemble).performAll operations) (D.performAll operations) :=
  .mapM (fun operation => (forgets_perform h operation).attempt) operations

end Discretization

namespace ClosureSystem

open Stateful

variable {α : Type} [Arithmetic α] {P : Interface} {n : Nat} {p : Partition n}

/-- Evaluates the closures at a global state. -/
def assembleAt (S : ClosureSystem α p) (request : Derivatives) (state : Vector α n) :
    Stateful (ClosureState α p) α P Unit := do
  let residual ← check (S.residual n state)
  modify fun s => { s with rightHandSide := .ofVector p residual }
  if request.hessian then
    S.assembleHessian state

/-- An assembly that also notes the state that it hands to the residual. -/
def assembleWatched (S : ClosureSystem α p) (request : Derivatives) :
    Stateful (List (Vector α n) × ClosureState α p) α P Unit := do
  if request.wantsJacobian then
    throw (.failed (.of .noJacobian))
  else
    beside (modify fun s => { s with assemblies := s.assemblies + 1 })
    let state ← beside globalState
    modify fun (handed, s) => (handed ++ [state], s)
    beside (S.assembleAt request state)

/-- The system that keeps the list of the states that it has handed to the residual. -/
def watched (S : ClosureSystem α p) :
    Discretization (List (Vector α n) × ClosureState α p) α P p :=
  S.discretization.watching S.assembleWatched

/-- The watched assembly assembles what the system itself assembles. -/
theorem forgets_assembleWatched (S : ClosureSystem α p) (request : Derivatives) :
    Forgets (S.assembleWatched (P := P) request) (S.assemble request) := by
  unfold assembleWatched assemble
  split
  · exact .throw _
  · refine (Forgets.beside _).bind fun _ => (Forgets.beside _).bind fun state => ?_
    exact .note_bind (fun _ _ => rfl) (.beside (S.assembleAt request state))

/-- But for the list the watched system does what the system does. -/
theorem forgets_performAll (S : ClosureSystem α p) (operations : List (Operation α)) :
    Forgets (S.watched.performAll operations)
      ((S.discretization : Discretization (ClosureState α p) α P p).performAll operations) :=
  Discretization.forgets_performAll (forgets_assembleWatched S) operations

end ClosureSystem

end DualHessian
