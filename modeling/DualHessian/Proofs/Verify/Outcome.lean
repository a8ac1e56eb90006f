import DualHessian.Proofs.Distributed.Dense
import DualHessian.Proofs.Verify.Comparison
import DualHessian.Proofs.Verify.Matrices

/-!
# The outcome of a verification

What the ranks of a group obtain from a verification whose files can be written: all of them the
same report, that of the comparison of both matrices, and the same matrices to write.

* `Discretization.verifyOpenly` is the verification that returns the matrices as well, which
  `Discretization.verify` gathers and keeps to itself.
* `Group.Writable` says that directories and files can be created.
* `Group.proceeds_verifyOpenly` says what the ranks find, and `Group.proceeds_verify` that they
  report it.
-/

namespace DualHessian

/-! ## What a verification gathers -/

/-- What a verification finds: the report, and the matrices that all ranks gather to be written. -/
structure Findings (α : Type) where
  /-- The report of the comparison. -/
  report : Report α
  /-- The matrix obtained by differences. -/
  differences : Dense α
  /-- The reference. -/
  reference : Dense α
  /-- The difference of both. -/
  discrepancy : Dense α
deriving DecidableEq, Repr

section Findings

variable {σ α : Type} [Arithmetic α] {n : Nat} {p : Partition n}

/-- Writes the three matrices on the first rank. -/
def writeDumps (c : Place) (directory : String) (digits : Nat)
    (differences reference discrepancy : Dense α) : Task α (Console α) Unit := do
  if c.isRoot then
    Console.createDirectory directory
    Console.writeMatrix (Disk.join directory dumpNames.1) differences digits
    Console.writeMatrix (Disk.join directory dumpNames.2.1) reference digits
    Console.writeMatrix (Disk.join directory dumpNames.2.2) discrepancy digits

/-- Collects and writes the three matrices as `dump` does, and returns them. -/
def dumpOpenly (c : Place) (directory : String) (digits : Nat)
    (differences reference discrepancy : RowMatrix α p) :
    Task α (Console α) (Dense α × Dense α × Dense α) := do
  let differences ← differences.dense
  let reference ← reference.dense
  let discrepancy ← discrepancy.dense
  writeDumps c directory digits differences reference discrepancy
  return (differences, reference, discrepancy)

theorem dump_eq (c : Place) (directory : String) (digits : Nat)
    (differences reference discrepancy : RowMatrix α p) :
    dump c directory digits differences reference discrepancy =
      (fun _ => ()) <$> dumpOpenly c directory digits differences reference discrepancy := by
  simp only [dump, dumpOpenly, map_bind, map_pure, bind_pure_unit]
  rfl

omit [Arithmetic α] in
theorem liftM_map {P : Interface} {β γ : Type} (f : β → γ) (task : Task α P β) :
    (liftM (f <$> task) : Stateful σ α P γ) = f <$> (liftM task : Stateful σ α P β) := by
  apply ExceptT.ext
  rw [ExceptT.run_map]
  funext s
  show (f <$> task).run >>= (fun out => pure (out, s)) =
    (fun out : Except Stop β × σ => (f <$> out.1, out.2)) <$>
      (task.run >>= fun out => pure (out, s))
  rw [ExceptT.run_map, map_bind, bind_map_left]
  rfl

namespace Discretization

variable [Magnitude α] [SquareRoot α] (D : Discretization σ α (Console α) p) (settings : Settings α)

/-- Compares and writes as `judge` does, and returns what has been gathered. -/
def judgeOpenly (differences reference : RowMatrix α p) : Task α (Console α) (Findings α) := do
  match ← compare settings.tolerances differences reference with
  | .error conflict => throw (.failed (.of (.conflict conflict)))
  | .ok (report, discrepancy) =>
    let (differences, reference, discrepancy) ← dumpOpenly D.place settings.directory
      settings.digits differences reference discrepancy
    D.tellReport report
    return ⟨report, differences, reference, discrepancy⟩

/-- Verifies the Hessian as `verify` does, and returns what has been gathered. -/
def verifyOpenly : Stateful σ α (Console α) (Findings α) := do
  (D.tellOnRoot (.dofs n) : Task α (Console α) Unit)
  let (differences, reference) ← D.bothMatrices settings
  (D.judgeOpenly settings differences reference : Task α (Console α) (Findings α))

theorem judge_eq (differences reference : RowMatrix α p) :
    D.judge settings differences reference =
      Findings.report <$> D.judgeOpenly settings differences reference := by
  unfold judge judgeOpenly
  rw [map_bind]
  refine congrArg (_ >>= ·) (funext fun compared => ?_)
  cases compared with
  | error conflict => rfl
  | ok out =>
    obtain ⟨report, discrepancy⟩ := out
    simp only [dump_eq, map_bind, bind_map_left, map_pure]

/-- A verification does the same whether or not it returns what has been gathered. -/
theorem verify_eq : D.verify settings = Findings.report <$> D.verifyOpenly settings := by
  unfold verify verifyOpenly
  simp only [map_bind, judge_eq, liftM_map]

end Discretization

end Findings

namespace Group

variable {α : Type} {n size : Nat} {p : Fin size → Partition n}

/-! ## Surroundings -/

/-- Requests are put by each rank on its own, and directories and files can be written. -/
structure Writable (R : Replies (Console α) size) : Prop where
  /-- No request is put by all ranks together. -/
  own : ∀ q, R.shared q = false
  /-- Directories can be created. -/
  directory : ∀ r path (reply : Bool), R.alone r (.createDirectory path) reply → reply = true
  /-- Files can be written. -/
  file : ∀ r path A digits (reply : Written),
    R.alone r (.writeMatrix path A digits) reply → reply = .done

/-- Surroundings in which directories and files can be written. -/
structure Accepts {τ : Type}
    (answer : (q : (Console α).Request) → StateM τ ((Console α).Reply q)) : Prop where
  /-- Directories can be created. -/
  directory : ∀ path t, (answer (.createDirectory path) t).1 = true
  /-- Files can be written. -/
  file : ∀ path A digits t, (answer (.writeMatrix path A digits) t).1 = .done

/-- Surroundings in which everything can be written. -/
def acceptAll (α : Type) : (q : (Console α).Request) → StateM Unit ((Console α).Reply q)
  | .tell _ => fun t => ((), t)
  | .createDirectory _ => fun t => (true, t)
  | .writeMatrix .. => fun t => (Written.done, t)

/-- There are surroundings in which directories and files can be written. -/
theorem accepts_acceptAll (α : Type) : Accepts (acceptAll α) :=
  ⟨fun _ _ => rfl, fun _ _ _ _ => rfl⟩

/-- The replies of surroundings in which directories and files can be written. -/
def accepting (α : Type) (size : Nat) : Replies (Console α) size where
  shared _ := false
  alone _
    | .tell _, _ => True
    | .createDirectory _, reply => reply = true
    | .writeMatrix .., reply => reply = Written.done
  together _ _ := False

theorem writable_accepting (α : Type) (size : Nat) : Writable (accepting α size) :=
  ⟨fun _ => rfl, fun _ _ _ h => h, fun _ _ _ _ _ h => h⟩

/-- Surroundings in which directories and files can be written give such replies. -/
theorem Accepts.alone {τ : Type}
    {answer : (q : (Console α).Request) → StateM τ ((Console α).Reply q)} (h : Accepts answer)
    (r : Fin size) (q : (Console α).Request) (t : τ) :
    (accepting α size).alone r q (answer q t).1 := by
  cases q with
  | tell event => trivial
  | createDirectory path => exact h.directory path t
  | writeMatrix path A digits => exact h.file path A digits t

/-! ## Files -/

variable [Arithmetic α] {R : Replies (Console α) size}

omit [Arithmetic α] in
/-- Writing matrices stops no rank. -/
theorem achieves_writeDumps (hwritable : Writable R) (c : Fin size → Place) (directory : String)
    (digits : Nat) (differences reference discrepancy : Dense α) :
    Achieves R (fun out => out = fun _ => ()) fun r =>
      writeDumps (c r) directory digits differences reference discrepancy := by
  -- The first rank writes, one request after the other; none of them is turned down.
  refine .of_alone fun r => ?_
  unfold writeDumps
  split
  · refine .ask _ _ (hwritable.own _) fun reply hreply => ?_
    obtain rfl := hwritable.directory r _ reply hreply
    refine .ask _ _ (hwritable.own _) fun reply hreply => ?_
    obtain rfl := hwritable.file r _ _ _ reply hreply
    refine .ask _ _ (hwritable.own _) fun reply hreply => ?_
    obtain rfl := hwritable.file r _ _ _ reply hreply
    refine .ask _ _ (hwritable.own _) fun reply hreply => ?_
    obtain rfl := hwritable.file r _ _ _ reply hreply
    exact .done _ rfl
  · exact .done _ rfl

/-- All ranks obtain the matrices that are written. -/
theorem achieves_dumpOpenly (hwritable : Writable R) (c : Fin size → Place) (directory : String)
    (digits : Nat) {columns : Nat} {differences reference discrepancy : GroupMatrix α p}
    (hdifferences : ∀ r, (differences r).columns = columns)
    (hreference : ∀ r, (reference r).columns = columns)
    (hdiscrepancy : ∀ r, (discrepancy r).columns = columns) :
    Achieves R
      (fun out => out = fun _ =>
        (dense differences columns, dense reference columns, dense discrepancy columns))
      fun r => dumpOpenly (c r) directory digits (differences r) (reference r) (discrepancy r) := by
  unfold dumpOpenly
  refine (achieves_dense differences hdifferences).andThen _ ?_
  rintro _ rfl
  refine (achieves_dense reference hreference).andThen _ ?_
  rintro _ rfl
  refine (achieves_dense discrepancy hdiscrepancy).andThen _ ?_
  rintro _ rfl
  refine (achieves_writeDumps hwritable c directory digits _ _ _).andThen _ ?_
  rintro _ rfl
  exact .pure rfl

/-! ## The verdict -/

variable [Magnitude α] [SquareRoot α]

/-- What is found in a comparison of matrices with the given number of columns. -/
def findings (t : Tolerances α) (columns : Nat) (differences reference : GroupMatrix α p) :
    Findings α where
  report := differences.report t columns reference
  differences := dense differences columns
  reference := dense reference columns
  discrepancy := dense (differences.minus reference) columns

/-- All ranks obtain the report of the comparison and the matrices. -/
theorem achieves_judgeOpenly {σ : Fin size → Type} (hwritable : Writable R)
    (D : (r : Fin size) → Discretization (σ r) α (Console α) (p r)) (settings : Settings α)
    {columns : Nat} {differences reference : GroupMatrix α p}
    (hdifferences : ∀ r, (differences r).columns = columns)
    (hreference : ∀ r, (reference r).columns = columns) :
    Achieves R
      (fun out => out = fun _ => findings settings.tolerances columns differences reference)
      fun r => (D r).judgeOpenly settings (differences r) (reference r) := by
  unfold Discretization.judgeOpenly
  refine (achieves_compare settings.tolerances hdifferences hreference).andThen _ ?_
  rintro _ rfl
  have hminus : ∀ r, (differences.minus reference r).columns = columns := hdifferences
  refine (achieves_dumpOpenly hwritable _ _ _ hdifferences hreference hminus).andThen _ ?_
  rintro _ rfl
  refine (achieves_tellReport hwritable.own D _).andThen _ ?_
  rintro _ rfl
  exact .pure rfl

open ClosureState

/-- All ranks obtain the findings for the matrix of differences and the reference. -/
theorem proceeds_verifyOpenly (hwritable : Writable R)
    (S : (r : Fin size) → ClosureSystem α (p r)) (hdivide : Partition.Divide p)
    {residual : Fin size → Vector α n → Vector α n}
    (hresidual : ∀ r y, (S r).residual n y = .ok (residual r y))
    {x dual : Vector α n} {states : (r : Fin size) → ClosureState α (p r)}
    (h : Share x dual states) {settings : Settings α} {step : Step α}
    (hstep : Step.ofSize settings.step = .ok step)
    (hshape : ∀ r, (S r).pattern.rows = n ∧ (S r).pattern.columns = n) {rule : HessianRule α}
    (hrule : ∀ r, (S r).hessian? = some rule) {H : SparseMatrix α}
    (hH : rule n x (settings.dual.dualOf dual) = .ok H) (hrows : H.rows = n ∧ H.columns = n) :
    Proceeds R states
      (fun out _ => ∃ differences reference : GroupMatrix α p,
        Estimated residual x (settings.dual.dualOf dual) ⟨step, settings.dropTolerance⟩
          (fun r => (S r).pattern.occupancy) differences ∧
        (∀ r, (reference r).part = H.restrict (p r).owns) ∧
        out = fun _ => findings settings.tolerances n differences reference)
      fun r => (S r).discretization.verifyOpenly settings := by
  unfold Discretization.verifyOpenly
  refine (Proceeds.lift (achieves_tellOnRoot hwritable.own _ _)).andThen _ ?_
  rintro _ s ⟨-, rfl⟩
  refine (proceeds_bothMatrices hwritable.own S hdivide hresidual h hstep hshape hrule hH
    hrows).andThen _ ?_
  rintro matrices s ⟨hestimated, hpart⟩
  have hdifferences : ∀ r, (matrices r).1.columns = n := hestimated.columns_eq
  have hreference : ∀ r, (matrices r).2.columns = n := by
    intro r
    rw [RowMatrix.columns, hpart r]
    exact hrows.2
  refine (Proceeds.lift (achieves_judgeOpenly hwritable _ settings hdifferences hreference)).mono ?_
  rintro _ _ ⟨rfl, -⟩
  exact ⟨_, _, hestimated, hpart, rfl⟩

/-- What a verification finds, it also reports. -/
theorem proceeds_verify {σ : Fin size → Type} {states : (r : Fin size) → σ r}
    {D : (r : Fin size) → Discretization (σ r) α (Console α) (p r)} {settings : Settings α}
    {findings : Findings α}
    (h : Proceeds R states (fun out _ => out = fun _ => findings)
      fun r => (D r).verifyOpenly settings) :
    Proceeds R states (fun out _ => out = fun _ => findings.report)
      fun r => (D r).verify settings := by
  simp only [Discretization.verify_eq, map_eq_pure_bind]
  refine h.andThen _ ?_
  rintro _ s rfl
  exact .pure rfl

end Group

end DualHessian
