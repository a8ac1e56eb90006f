import DualHessian.Proofs.System.Consistency
import DualHessian.Proofs.Verify.Independence

/-!
# When matrices cannot be written

Only the first rank of a group writes the matrices of a verification, and only this rank learns
whether they are written. All other ranks end with the report, also if the first one stops.

* `Storage` says what becomes of the directory and of the files, `Storage.stop?` why a rank gives up
  writing.
* `Group.attains_judge` is the comparison on all ranks, with whatever becomes of the files.
* `Group.attains_verify_stopped` and `Group.attains_verify_compared` are the whole verification,
  which may also stop before anything is compared.
* `Description.verify_endings` says when all ranks of a group end in the same way.
-/

namespace DualHessian

/-! ## Storage -/

/-- What becomes of the directory and of the files of a verification. -/
structure Storage where
  /-- Whether the directory can be created. -/
  created : Bool
  /-- What becomes of the file at a path. -/
  written : String → Written

/-- Why a file is not written. -/
def Written.stop? (path : String) : Written → Option Stop
  | done => none
  | notCreated => some (.failed (.wrap (.file path) (.of .disk)))
  | notFilled => some (.failed (.wrap (.contents path) (.of .disk)))
  | noTable violation => some (.violated violation)

namespace Storage

variable {α : Type} {size : Nat} (s : Storage)

/-- The reply to a request. -/
def reply : (q : (Console α).Request) → (Console α).Reply q
  | .tell _ => ()
  | .createDirectory _ => s.created
  | .writeMatrix path _ _ => s.written path

/-- The replies to all ranks. -/
def replies (α : Type) (size : Nat) : Replies (Console α) size where
  shared _ := false
  alone _ q reply := reply = s.reply q
  together _ _ := False

/-- Why the directory is not there. -/
def directoryStop? (directory : String) : Option Stop :=
  if s.created then none else some (.failed (.wrap (.directory directory) (.of .disk)))

/-- Why a file in the directory is not written. -/
def fileStop? (directory name : String) : Option Stop :=
  (s.written (Disk.join directory name)).stop? (Disk.join directory name)

/-- Why the matrices are not written: the first thing that cannot be done. -/
def failure? (directory : String) : Option Stop :=
  (s.directoryStop? directory).or <| (s.fileStop? directory dumpNames.1).or <|
    (s.fileStop? directory dumpNames.2.1).or <| s.fileStop? directory dumpNames.2.2

/-- Why a rank stops while the matrices are written. Only the first rank writes. -/
def stop? (directory : String) (c : Place) : Option Stop :=
  if c.isRoot then s.failure? directory else none

end Storage

/-- A result, unless a rank stops before it. -/
def Stop.before {β : Type} : Option Stop → β → Except Stop β
  | some stop, _ => .error stop
  | none, b => .ok b

namespace Group

open Stateful

variable {α : Type} {n size : Nat} {p : Fin size → Partition n} {storage : Storage}

/-! ## A rank on its own -/

section Alone

open Program

variable {r : Fin size} {directory : String}

/-- A rank that may stop before it goes on, and may then stop again. -/
private theorem alone_andThen {β γ : Type} {R : Replies (Console α) size}
    {task : Task α (Console α) β} {next : β → Task α (Console α) γ} {first rest : Option Stop}
    {b : β} {c : γ} (h : Alone R r (fun out => out = Stop.before first b) task.run)
    (hnext : Alone R r (fun out => out = Stop.before rest c) (next b).run) :
    Alone R r (fun out => out = Stop.before (first.or rest) c) (task >>= next).run := by
  refine h.bind (ExceptT.bindCont next) ?_
  rintro _ rfl
  cases first with
  | some stop => exact .done _ rfl
  | none => exact hnext

private theorem alone_createDirectory :
    Alone (storage.replies α size) r
      (fun out => out = Stop.before (storage.directoryStop? directory) ())
      (Console.createDirectory directory).run := by
  refine .ask _ _ rfl fun reply hreply => ?_
  obtain rfl : reply = storage.created := hreply
  unfold Storage.directoryStop?
  cases storage.created with
  | true => exact .done _ rfl
  | false => exact .done _ rfl

private theorem alone_writeMatrix (name : String) (A : Dense α) (digits : Nat) :
    Alone (storage.replies α size) r
      (fun out => out = Stop.before (storage.fileStop? directory name) ())
      (Console.writeMatrix (Disk.join directory name) A digits).run := by
  refine .ask _ _ rfl fun reply hreply => ?_
  obtain rfl : reply = storage.written (Disk.join directory name) := hreply
  unfold Storage.fileStop?
  cases storage.written (Disk.join directory name) with
  | done => exact .done _ rfl
  | notCreated => exact .done _ rfl
  | notFilled => exact .done _ rfl
  | noTable violation => exact .done _ rfl

/-- A rank that writes stops at the first thing that it cannot do. -/
theorem alone_writeDumps (c : Place) (digits : Nat) (differences reference discrepancy : Dense α) :
    Alone (storage.replies α size) r
      (fun out => out = Stop.before (storage.stop? directory c) ())
      (writeDumps c directory digits differences reference discrepancy).run := by
  unfold writeDumps Storage.stop?
  split
  · exact alone_andThen alone_createDirectory <| alone_andThen (alone_writeMatrix _ _ _) <|
      alone_andThen (alone_writeMatrix _ _ _) (alone_writeMatrix _ _ _)
  · exact .done _ rfl

variable {σ : Type} {q : Partition n}

private theorem alone_tellOnRoot (D : Discretization σ α (Console α) q) (event : Event α) :
    Alone (storage.replies α size) r (fun out => out = Stop.before none ())
      (D.tellOnRoot event).run := by
  unfold Discretization.tellOnRoot
  split
  · exact .ask _ _ rfl fun _ _ => .done _ rfl
  · exact .done _ rfl

/-- A rank that is done with writing tells the outcome and returns the report. -/
private theorem alone_tellReport (D : Discretization σ α (Console α) q) (report : Report α) :
    Alone (storage.replies α size) r (fun out => out = Stop.before none ())
      (D.tellReport report).run := by
  unfold Discretization.tellReport
  refine alone_andThen (alone_tellOnRoot D _) (alone_andThen (alone_tellOnRoot D _) ?_)
  split
  · exact .done _ rfl
  · exact alone_tellOnRoot D _

end Alone

/-! ## All ranks -/

variable [Arithmetic α]

/-- All ranks gather the matrices, and the first one stops if it cannot write them. -/
theorem attains_dump (c : Fin size → Place) (directory : String) (digits : Nat) {columns : Nat}
    {differences reference discrepancy : GroupMatrix α p}
    (hdifferences : ∀ r, (differences r).columns = columns)
    (hreference : ∀ r, (reference r).columns = columns)
    (hdiscrepancy : ∀ r, (discrepancy r).columns = columns) :
    Attains (storage.replies α size)
      (fun out => ∀ r, out r = Stop.before (storage.stop? directory (c r)) ())
      fun r => (dump (c r) directory digits (differences r) (reference r) (discrepancy r)).run := by
  unfold dump
  -- All matrices are gathered before the first file is written, so nobody waits for the writer.
  refine (achieves_dense differences hdifferences).bind _ ?_
  rintro _ rfl
  refine (achieves_dense reference hreference).bind _ ?_
  rintro _ rfl
  refine (achieves_dense discrepancy hdiscrepancy).bind _ ?_
  rintro _ rfl
  exact .of_alone fun r => alone_writeDumps (c r) digits _ _ _

variable [Magnitude α] [SquareRoot α]

/-- All ranks obtain the report of the comparison, unless they stop because they cannot write. -/
theorem attains_judge {σ : Fin size → Type}
    (D : (r : Fin size) → Discretization (σ r) α (Console α) (p r)) (settings : Settings α)
    {columns : Nat} {differences reference : GroupMatrix α p}
    (hdifferences : ∀ r, (differences r).columns = columns)
    (hreference : ∀ r, (reference r).columns = columns) :
    Attains (storage.replies α size)
      (fun out => ∀ r, out r = Stop.before (storage.stop? settings.directory (D r).place)
        (differences.report settings.tolerances columns reference))
      fun r => ((D r).judge settings (differences r) (reference r)).run := by
  unfold Discretization.judge
  refine (achieves_compare settings.tolerances hdifferences hreference).bind _ ?_
  rintro _ rfl
  have hminus : ∀ r, (differences.minus reference r).columns = columns := hdifferences
  refine (attains_dump (fun r => (D r).place) settings.directory settings.digits hdifferences
    hreference hminus).bind (fun r => ExceptT.bindCont _) fun out hout => ?_
  -- The ranks do not meet again, so it does not matter that the first one may have stopped.
  refine @Attains.of_alone _ _ _ _ _ (fun r out => out = Stop.before
    (storage.stop? settings.directory (D r).place)
    (differences.report settings.tolerances columns reference)) _ fun r => ?_
  rw [hout r]
  cases storage.stop? settings.directory (D r).place with
  | some stop => exact .done _ rfl
  | none => exact alone_andThen (alone_tellReport (D r) _) (.done _ rfl)

/-! ## Before the comparison -/

/-- How a computation ends as seen from outside, where its failures have the given cause. -/
def seenAs {β : Type} (cause : Cause) : Except Stop β → Except Stop β
  | .error (.failed f) => .error (.failed (f.wrap cause))
  | result => result

omit [Arithmetic α] [Magnitude α] [SquareRoot α] in
theorem concludes_within {β : Type} {R : Replies (Console α) size} {τ : Fin size → Type}
    (cause : Cause) {actions : (r : Fin size) → Stateful (τ r) α (Console α) β}
    {states : (r : Fin size) → τ r} {post : Except Stop β → ((r : Fin size) → τ r) → Prop}
    (h : Concludes R states post actions) :
    Concludes R states (fun result s => ∃ inner, post inner s ∧ result = seenAs cause inner)
      fun r => Discretization.within cause (actions r) := by
  have hrun : ∀ r, (Discretization.within cause (actions r)).run (states r) =
      (fun out => (seenAs cause out.1, out.2)) <$> (actions r).run (states r) := by
    intro r
    unfold Discretization.within
    refine congrArg ((actions r).run (states r) >>= ·) (funext fun out => ?_)
    obtain ⟨(_ | _) | _, s⟩ := out <;> rfl
  unfold Concludes
  simp only [hrun]
  apply Attains.map h _
  rintro _ ⟨result, s, hpost, rfl⟩
  exact ⟨_, s, ⟨result, hpost, rfl⟩, rfl⟩

variable {residual : ResidualRule α} {hessian? : Option (HessianRule α)}
  {S : (r : Fin size) → ClosureSystem α (p r)} {x dual : Vector α n}
  {states : (r : Fin size) → ClosureState α (p r)}

open ClosureState

omit [Magnitude α] [SquareRoot α] in
/-- All ranks end alike when they assemble the reference. -/
theorem concludes_assembleReference {R : Replies (Console α) size}
    (hdivide : Partition.Divide p) (h : Share x dual states)
    (hresidual : ∀ r, (S r).residual = residual) (hrule : ∀ r, (S r).hessian? = hessian?) :
    Concludes R states
      (fun result s => result = seenAs .reference
        (closuresOutcome residual hessian? .withHessian x dual) ∧ Share x dual s)
      fun r => (S r).discretization.assembleReference := by
  have hassemble : Concludes R states
      (fun result s => result = closuresOutcome residual hessian? .withHessian x dual ∧
        Share x dual s)
      fun r =>
        ((S r).assemble .withHessian : Stateful (ClosureState α (p r)) α (Console α) Unit) := by
    unfold ClosureSystem.assemble
    refine (Proceeds.modify _).bind _ ?_
    rintro _ _ rfl
    have hcounted : Share x dual fun r =>
        { states r with assemblies := (states r).assemblies + 1 } := ⟨h.solution, h.dual⟩
    refine (proceeds_globalState hdivide hcounted).bind _ ?_
    rintro _ _ ⟨rfl, rfl⟩
    refine (concludes_assembleAt hdivide hcounted hresidual hrule rfl).mono ?_
    rintro _ s ⟨rfl, hs, -⟩
    exact ⟨rfl, hs⟩
  refine (concludes_within .reference hassemble).mono ?_
  rintro _ s ⟨_, ⟨rfl, hs⟩, rfl⟩
  exact ⟨rfl, hs⟩

/-- How a verification ends before it takes differences: by the reference, or by the step. -/
def preparation (residual : ResidualRule α) (hessian? : Option (HessianRule α))
    (settings : Settings α) (x dual : Vector α n) : Except Stop (Step α) :=
  seenAs .reference
      (closuresOutcome residual hessian? .withHessian x (settings.dual.dualOf dual)) >>=
    fun () => Description.checked (Step.ofSize settings.step)

omit [Magnitude α] [SquareRoot α] in
private theorem seenAs_eq_ok {β : Type} {cause : Cause} {result : Except Stop β} {b : β}
    (h : seenAs cause result = .ok b) : result = .ok b := by
  obtain (_ | _) | b' := result
  · cases h
  · cases h
  · exact h

omit [SquareRoot α] in
/-- If the preparation succeeds, there are a step and a Hessian of the right shape. -/
theorem preparation_eq_ok {settings : Settings α} {step : Step α}
    (h : preparation residual hessian? settings x dual = .ok step) :
    Step.ofSize settings.step = .ok step ∧ ∃ rule, hessian? = some rule ∧
      ∃ H, rule n x (settings.dual.dualOf dual) = .ok H ∧ H.rows = n ∧ H.columns = n := by
  unfold preparation at h
  cases hreference : seenAs .reference
      (closuresOutcome residual hessian? .withHessian x (settings.dual.dualOf dual)) with
  | error stop =>
    rw [hreference] at h
    cases h
  | ok _ =>
    rw [hreference] at h
    cases hstep : Step.ofSize settings.step with
    | error v =>
      rw [hstep] at h
      cases h
    | ok step' =>
      rw [hstep] at h
      obtain rfl := Except.ok.inj h
      have hclosures := seenAs_eq_ok hreference
      obtain ⟨z, hz⟩ := closuresOutcome_eq_ok hclosures
      have hhessian : hessianOutcome hessian? x (settings.dual.dualOf dual) = .ok () := by
        rwa [closuresOutcome, hz] at hclosures
      exact ⟨rfl, hessianOutcome_eq_ok.1 hhessian⟩

omit [SquareRoot α] in
/-- If the preparation fails, all ranks stop for the same reason. -/
theorem attains_bothMatrices_stopped {R : Replies (Console α) size} (hdivide : Partition.Divide p)
    (h : Share x dual states) (hresidual : ∀ r, (S r).residual = residual)
    (hrule : ∀ r, (S r).hessian? = hessian?) {settings : Settings α} {stop : Stop}
    (hstop : preparation residual hessian? settings x dual = .error stop) :
    Attains R (fun out => ∀ r, (out r).1 = .error stop) fun r =>
      ((S r).discretization.bothMatrices settings).run (states r) := by
  unfold Discretization.bothMatrices
  refine (proceeds_initializeDual S settings.dual h).bind _ ?_
  intro _ s hs
  apply Attains.bind (concludes_assembleReference hdivide hs hresidual hrule) fun r out =>
    ExceptT.bindCont (m := StateT (ClosureState α (p r)) (Program α (Console α))) _ out.1 out.2
  rintro _ ⟨_, s', ⟨rfl, -⟩, rfl⟩
  unfold preparation at hstop
  cases hreference : seenAs .reference
      (closuresOutcome residual hessian? .withHessian x (settings.dual.dualOf dual)) with
  | error stop' =>
    rw [hreference] at hstop
    obtain rfl := Except.error.inj hstop
    exact .done _ fun _ => rfl
  | ok _ =>
    rw [hreference] at hstop
    cases hstep : Step.ofSize settings.step with
    | error v =>
      rw [hstep] at hstop
      obtain rfl := Except.error.inj hstop
      exact .done _ fun _ => rfl
    | ok step =>
      rw [hstep] at hstop
      cases hstop

/-! ## The whole verification -/

/-- If the preparation fails, all ranks end with its failure. -/
theorem attains_verify_stopped (hdivide : Partition.Divide p) (h : Share x dual states)
    (hresidual : ∀ r, (S r).residual = residual) (hrule : ∀ r, (S r).hessian? = hessian?)
    {settings : Settings α} {stop : Stop}
    (hstop : preparation residual hessian? settings x dual = .error stop) :
    Attains (storage.replies α size) (fun out => ∀ r, (out r).1 = .error stop) fun r =>
      ((S r).discretization.verify settings).run (states r) := by
  unfold Discretization.verify
  refine (Proceeds.lift (achieves_tellOnRoot (fun _ => rfl) _ _)).bind _ ?_
  rintro _ s ⟨-, rfl⟩
  apply Attains.bind (attains_bothMatrices_stopped hdivide h hresidual hrule hstop) fun r out =>
    ExceptT.bindCont (m := StateT (ClosureState α (p r)) (Program α (Console α))) _ out.1 out.2
  intro out hout
  refine .of_eq_done (b := fun r => (.error stop, (out r).2)) (fun r => ?_) fun _ => rfl
  rw [hout r]
  rfl

/-- Otherwise all ranks compare, and only then the first one may stop. -/
theorem attains_verify_compared (hdivide : Partition.Divide p)
    {value : Fin size → Vector α n → Vector α n}
    (hresidual : ∀ r y, (S r).residual n y = .ok (value r y)) (h : Share x dual states)
    {settings : Settings α} {step : Step α} (hstep : Step.ofSize settings.step = .ok step)
    (hshape : ∀ r, (S r).pattern.rows = n ∧ (S r).pattern.columns = n) {rule : HessianRule α}
    (hrule : ∀ r, (S r).hessian? = some rule) {H : SparseMatrix α}
    (hH : rule n x (settings.dual.dualOf dual) = .ok H) (hrows : H.rows = n ∧ H.columns = n) :
    Attains (storage.replies α size)
      (fun out => ∃ differences reference : GroupMatrix α p,
        Estimated value x (settings.dual.dualOf dual) ⟨step, settings.dropTolerance⟩
          (fun r => (S r).pattern.occupancy) differences ∧
        (∀ r, (reference r).part = H.restrict (p r).owns) ∧
        ∀ r, (out r).1 = Stop.before (storage.stop? settings.directory (S r).place)
          (differences.report settings.tolerances n reference))
      fun r => ((S r).discretization.verify settings).run (states r) := by
  unfold Discretization.verify
  refine (Proceeds.lift (achieves_tellOnRoot (fun _ => rfl) _ _)).bind _ ?_
  rintro _ s ⟨-, rfl⟩
  refine (proceeds_bothMatrices (fun _ => rfl) S hdivide hresidual h hstep hshape hrule hH
    hrows).bind _ ?_
  rintro matrices s ⟨hestimated, hpart⟩
  have hdifferences : ∀ r, (matrices r).1.columns = n := hestimated.columns_eq
  have hreference : ∀ r, (matrices r).2.columns = n := fun r =>
    (RowMatrix.columns_of_restrict (hpart r)).trans hrows.2
  refine (attains_judge _ settings hdifferences hreference).bind
    (fun r out => .done (out, s r)) fun out hout => ?_
  exact .done _ ⟨_, _, hestimated, hpart, hout⟩

omit [Arithmetic α] [Magnitude α] [SquareRoot α] in
/-- What the ranks attain with the replies of a storage they return in surroundings that give
them. -/
theorem returns_of_replies {β σ τ : Fin size → Type} {outcome : (r : Fin size) → Except Stop (β r)}
    {programs : (r : Fin size) → Program α (Console α) (Except Stop (β r) × σ r)}
    (h : Attains (storage.replies α size) (fun out => ∀ r, (out r).1 = outcome r) programs)
    (answer : (r : Fin size) → (q : (Console α).Request) → StateM (τ r) ((Console α).Reply q))
    (hanswer : ∀ r q t, (answer r q t).1 = storage.reply q) (surroundings : (r : Fin size) → τ r) :
    ∃ (s : (r : Fin size) → σ r) (t : (r : Fin size) → τ r),
      Returns (fun r => (programs r).settle (answer r) (surroundings r))
        (fun r => ((outcome r, s r), t r)) := by
  obtain ⟨results, hresults, hreturns⟩ :=
    (h.settle answer (fun _ => rfl) hanswer surroundings).returns
  refine ⟨fun r => (results r).1.2, fun r => (results r).2, ?_⟩
  simp only [← hresults]
  exact hreturns

/-- If the preparation succeeds, there is one report, whatever can be written. -/
theorem exists_report (hdivide : Partition.Divide p)
    {value : Fin size → Vector α n → Vector α n}
    (hresidual : ∀ r y, (S r).residual n y = .ok (value r y)) (h : Share x dual states)
    {settings : Settings α} {step : Step α} (hstep : Step.ofSize settings.step = .ok step)
    (hshape : ∀ r, (S r).pattern.rows = n ∧ (S r).pattern.columns = n) {rule : HessianRule α}
    (hrule : ∀ r, (S r).hessian? = some rule) {H : SparseMatrix α}
    (hH : rule n x (settings.dual.dualOf dual) = .ok H) (hrows : H.rows = n ∧ H.columns = n) :
    ∃ report, ∀ storage : Storage, Attains (storage.replies α size)
      (fun out => ∀ r, (out r).1 =
        Stop.before (storage.stop? settings.directory (S r).place) report)
      fun r => ((S r).discretization.verify settings).run (states r) := by
  have hverify : ∀ storage : Storage, Attains (storage.replies α size) _ _ := fun _ =>
    attains_verify_compared hdivide hresidual h hstep hshape hrule hH hrows
  -- A group that can write everything obtains some matrices, and there are no others.
  obtain ⟨_, ⟨differences, reference, hdifferences, hreference, -⟩, -⟩ :=
    ((hverify ⟨true, fun _ => .done⟩).settle (fun _ q (t : Unit) => (Storage.reply _ q, t))
      (fun _ => rfl) (fun _ _ _ => rfl) fun _ => ()).returns
  refine ⟨differences.report settings.tolerances n reference, fun storage => ?_⟩
  refine (hverify storage).mono ?_
  rintro out ⟨differences', reference', hdifferences', hreference', hout⟩
  obtain rfl : differences' = differences := hdifferences'.unique hdifferences
  obtain rfl : reference' = reference := funext fun r =>
    RowMatrix.ext_part ((hreference' r).trans (hreference r).symm)
  exact hout

end Group

/-! ## How all ranks end -/

/-- How a rank ends if all ranks would end as in `outcome` could everything be written. -/
def Storage.ending {β : Type} (s : Storage) (directory : String) (c : Place)
    (outcome : Except Stop β) : Except Stop β :=
  outcome >>= Stop.before (s.stop? directory c)

/-- All ranks end alike exactly if they stop before anything is written, or everything is written,
or there are no other ranks than the first one. -/
theorem Storage.endings_agree_iff {β : Type} {size : Nat} {c : Fin size → Place}
    (hc : ∀ r, (c r).rank = r) (s : Storage) (directory : String) (outcome : Except Stop β) :
    (∀ r q, s.ending directory (c r) outcome = s.ending directory (c q) outcome) ↔
      (∃ stop, outcome = .error stop) ∨ s.failure? directory = none ∨ size ≤ 1 := by
  constructor
  · intro h
    cases outcome with
    | error stop => exact .inl ⟨stop, rfl⟩
    | ok b =>
      by_contra hnot
      simp only [reduceCtorEq, exists_false, false_or, not_or, not_le] at hnot
      -- The first rank ends with the failure of its writing, the second one with the report.
      obtain ⟨stop, hstop⟩ := Option.ne_none_iff_exists'.1 hnot.1
      have hroot := h ⟨0, by omega⟩ ⟨1, hnot.2⟩
      simp [Storage.ending, Storage.stop?, Place.isRoot, hc, hstop, Stop.before, bind,
        Except.bind] at hroot
  · rintro (⟨stop, rfl⟩ | hnone | hsize) r q
    · rfl
    · have hnever : ∀ c : Place, s.stop? directory c = none := fun c => by
        rw [Storage.stop?, hnone, ite_self]
      rw [Storage.ending, Storage.ending, hnever, hnever]
    · rw [show r = q from Fin.ext (by omega)]

namespace Description

open DualHessian.Group (preparation)

variable {α : Type} [Arithmetic α] [Magnitude α] [SquareRoot α]

/-- How the ranks of a group end a verification. There is one outcome, which does not depend on what
can be written: the failure of the preparation, or the report of the comparison. Every rank ends
with it, but for the first one, which ends with the first thing that it cannot write if there is a
report. So all ranks end alike exactly if the preparation fails, or everything is written, or the
first rank is alone. -/
theorem verify_endings {size : Nat} (hsize : 0 < size) {c : Fin size → Place}
    (hc : ∀ r, (c r).rank = r ∧ (c r).size = size) (d : Description α)
    {residual : ResidualRule α} {pattern : Pattern} {n : Nat}
    (hresidual : d.residual? = some residual) (htotal : ∀ y : Vector α n, ∃ z, residual n y = .ok z)
    (hpattern : d.pattern? = some pattern) (hrows : pattern.rows = n)
    (hcolumns : pattern.columns = n) {x dual : Vector α n}
    (hx : vectorOr n d.solution? = x.toList) (hdual : vectorOr n d.dual? = dual.toList)
    (settings : Settings α) :
    ∃ (p : Fin size → Partition n) (S : (r : Fin size) → ClosureSystem α (p r)),
      (∀ r, d.build (c r) = .ok ⟨n, p r, S r, .initial (p r) x dual⟩) ∧
      ∃ outcome : Except Stop (Report α),
        (∀ stop, preparation residual d.hessian? settings x dual = .error stop →
          outcome = .error stop) ∧
        (∀ step, preparation residual d.hessian? settings x dual = .ok step →
          ∃ report, outcome = .ok report) ∧
        ∀ storage : Storage,
          (∀ {τ : Fin size → Type}
            (answer : (r : Fin size) → (q : (Console α).Request) →
              StateM (τ r) ((Console α).Reply q))
            (_ : ∀ r q t, (answer r q t).1 = storage.reply q) (surroundings : (r : Fin size) → τ r),
            ∃ (s : (r : Fin size) → ClosureState α (p r)) (t : (r : Fin size) → τ r),
              Group.Returns
                (fun r => (((S r).discretization.verify settings).run
                  (.initial (p r) x dual)).settle (answer r) (surroundings r))
                (fun r => ((storage.ending settings.directory (c r) outcome, s r), t r))) ∧
          ((∀ r q, storage.ending settings.directory (c r) outcome =
              storage.ending settings.directory (c q) outcome) ↔
            (∃ stop, outcome = .error stop) ∨ storage.failure? settings.directory = none ∨
              size ≤ 1) := by
  subst hrows
  obtain ⟨p, hdivide, hbuild⟩ := build_ok hsize hc d hresidual hpattern hcolumns hx hdual
  let S (r : Fin size) : ClosureSystem α (p r) :=
    ⟨c r, pattern.restrict (p r).owns, residual, d.hessian?⟩
  have hagree := fun (storage : Storage) (outcome : Except Stop (Report α)) =>
    storage.endings_agree_iff (fun r => (hc r).1) settings.directory outcome
  have hshare := ClosureState.share_initial p x dual
  refine ⟨p, S, hbuild, ?_⟩
  -- Before anything is written only the preparation can fail, and it fails on all ranks.
  cases hpreparation : preparation residual d.hessian? settings x dual with
  | error stop =>
    refine ⟨.error stop, fun stop' hstop' => ?_, nofun, fun storage =>
      ⟨fun answer hanswer surroundings => ?_, hagree storage _⟩⟩
    · rw [Except.error.inj hstop']
    · exact Group.returns_of_replies (Group.attains_verify_stopped (S := S) hdivide hshare
        (fun _ => rfl) (fun _ => rfl) hpreparation) answer hanswer surroundings
  | ok step =>
    obtain ⟨hstep, rule, hrule, H, hH, hshape⟩ := Group.preparation_eq_ok hpreparation
    choose value hvalue using htotal
    obtain ⟨report, hreport⟩ := Group.exists_report (S := S) hdivide (fun _ => hvalue) hshare hstep
      (fun r => ⟨pattern.rows_restrict _, (pattern.columns_restrict _).trans hcolumns⟩)
      (fun _ => hrule) hH hshape
    refine ⟨.ok report, nofun, fun _ _ => ⟨report, rfl⟩, fun storage =>
      ⟨fun answer hanswer surroundings => ?_, hagree storage _⟩⟩
    exact Group.returns_of_replies (hreport storage) answer hanswer surroundings

/-- The last file cannot be filled: the first of two ranks ends with this failure, the other one
with the report. -/
theorem verify_endings_two_ranks :
    let settings : Settings Rat := ⟨1 / 10, 1 / 100, 0, 1, "out", 5, .unit⟩
    let storage : Storage := ⟨true, fun path =>
      if path = "out/FD_minus_AD_matrix.dat" then .notFilled else .done⟩
    ∃ (p : Fin 2 → Partition 2) (S : (r : Fin 2) → ClosureSystem Rat (p r)) (report : Report Rat)
      (s : (r : Fin 2) → ClosureState Rat (p r)),
      (∀ r, cubic.build (.member r.val 2 r.isLt) =
        .ok ⟨2, p r, S r, .initial (p r) #v[4, 5] #v[1, 2]⟩) ∧
      Group.Returns
        (fun r => (((S r).discretization.verify settings).run
          (.initial (p r) #v[4, 5] #v[1, 2])).settle (fun q (t : Unit) => (storage.reply q, t)) ())
        (fun r => ((if r = 0 then
            .error (.failed (.wrap (.contents "out/FD_minus_AD_matrix.dat") (.of .disk)))
          else .ok report, s r), ())) := by
  intro settings storage
  have hrows : (Pattern.banded 2 1).rows = 2 := rfl
  have hx : vectorOr 2 cubic.solution? = (#v[4, 5] : Vector Rat 2).toList := rfl
  have hdual : vectorOr 2 cubic.dual? = (#v[1, 2] : Vector Rat 2).toList := rfl
  obtain ⟨p, S, hbuild, outcome, -, hreport, hends⟩ :=
    verify_endings (by decide : 0 < 2) (c := fun r => .member r.val 2 r.isLt)
      (fun _ => ⟨rfl, rfl⟩) cubic rfl (fun y => ⟨_, rfl⟩) rfl hrows rfl hx hdual settings
  have hstep : Step.ofSize settings.step = .ok ⟨1 / 10, by decide +kernel⟩ :=
    dif_pos (by decide +kernel)
  -- Everything before the files succeeds.
  have hpreparation : preparation (fun _ y => .ok (y.map fun v => v * v * v)) cubic.hessian?
      settings (#v[4, 5] : Vector Rat 2) #v[1, 2] = .ok ⟨1 / 10, by decide +kernel⟩ := by
    show Description.checked (Step.ofSize settings.step) = _
    rw [hstep]
    rfl
  obtain ⟨report, rfl⟩ := hreport _ hpreparation
  obtain ⟨s, t, hreturns⟩ := (hends storage).1 (fun _ q (t : Unit) => (storage.reply q, t))
    (fun _ _ _ => rfl) fun _ => ()
  -- All files but the last one are written by the first rank, and none by the second one.
  have hending : ∀ r : Fin 2, storage.ending settings.directory (.member r.val 2 r.isLt)
      (.ok report) = if r = 0 then
        .error (.failed (.wrap (.contents "out/FD_minus_AD_matrix.dat") (.of .disk)))
      else .ok report := by
    have hfailure : storage.failure? settings.directory =
        some (.failed (.wrap (.contents "out/FD_minus_AD_matrix.dat") (.of .disk))) := by
      decide +kernel
    intro r
    match r with
    | 0 => exact congrArg (Stop.before · report) hfailure
    | 1 => rfl
  simp only [hending] at hreturns
  exact ⟨p, S, report, s, hbuild, hreturns⟩

/-- The directory cannot be created: the first of two ranks reports this failure, and the other one
does not learn of it and ends with the report. -/
theorem directory_failure_divides_ranks :
    let settings : Settings Rat := ⟨1 / 10, 1 / 100, 0, 1, "out", 5, .unit⟩
    let storage : Storage := ⟨false, fun _ => .done⟩
    ∃ (S : (r : Fin 2) → ClosureSystem Rat (Partition.mirrored r)) (report : Report Rat)
      (s : (r : Fin 2) → ClosureState Rat (Partition.mirrored r)),
      (∀ r, cubic.build (.member r.val 2 r.isLt) = .ok ⟨2, Partition.mirrored r, S r,
        .initial (Partition.mirrored r) #v[4, 5] #v[1, 2]⟩) ∧
      Group.Returns
        (fun r => (((S r).discretization.verify settings).run
          (.initial (Partition.mirrored r) #v[4, 5] #v[1, 2])).settle
            (fun q (t : Unit) => (storage.reply q, t)) ())
        (fun r => ((if r = 0 then .error (.failed (.wrap (.directory "out") (.of .disk)))
          else .ok report, s r), ())) := by
  intro settings storage
  let rule : HessianRule Rat := fun n x y => .ok (.ofEntries n n
    ((List.finRange n).map fun i => ⟨i.val, i.val, 6 * x.get i * y.get i⟩))
  let system (r : Fin 2) : ClosureSystem Rat (Partition.mirrored r) :=
    ⟨.member r.val 2 r.isLt, (Pattern.banded 2 1).restrict (Partition.mirrored r).owns,
      fun _ y => .ok (y.map fun v => v * v * v), some rule⟩
  have hbuild : ∀ r : Fin 2, cubic.build (.member r.val 2 r.isLt) = .ok ⟨2, Partition.mirrored r,
      system r, .initial (Partition.mirrored r) #v[4, 5] #v[1, 2]⟩ := by
    intro r
    match r with
    | 0 => rfl
    | 1 => rfl
  have hstep : Step.ofSize settings.step = .ok ⟨1 / 10, by decide +kernel⟩ :=
    dif_pos (by decide +kernel)
  obtain ⟨report, hreport⟩ := Group.exists_report (S := system) Partition.divide_mirrored
    (fun _ _ => rfl) (ClosureState.share_initial _ #v[4, 5] #v[1, 2]) hstep
    (fun r => ⟨Pattern.rows_restrict _ _, Pattern.columns_restrict _ _⟩) (fun _ => rfl) rfl
    ⟨SparseMatrix.rows_ofEntries .., rfl⟩
  -- Only the first rank writes, so only that one learns of the failure.
  have hending : ∀ r : Fin 2, Stop.before (storage.stop? settings.directory (system r).place)
      report = if r = 0 then .error (.failed (.wrap (.directory "out") (.of .disk)))
        else .ok report := by
    intro r
    match r with
    | 0 => rfl
    | 1 => rfl
  obtain ⟨s, t, hreturns⟩ := Group.returns_of_replies (hreport storage)
    (fun _ q (t : Unit) => (storage.reply q, t)) (fun _ _ _ => rfl) fun _ => ()
  simp only [hending] at hreturns
  exact ⟨system, report, s, hbuild, hreturns⟩

end Description

end DualHessian
