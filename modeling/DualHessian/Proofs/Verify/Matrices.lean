import DualHessian.Proofs.Distributed.Norms
import DualHessian.Proofs.Hessian.Content
import DualHessian.Proofs.System.Closures
import DualHessian.Verify.Run

/-!
# The matrices of a verification

What the ranks of a group obtain in a verification before they compare: the matrix of differences
and the reference, for systems given by closures that agree on solution and dual. No law of
arithmetic is used.

* `sampled` is the function of which the samples are taken: the inner product of the residual at a
  state and the dual.
* `Group.proceeds_differenceMatrix` says that all ranks obtain the estimates for this function.
* `Group.proceeds_bothMatrices` adds the reference.
-/

namespace DualHessian

/-- The dual that a verification uses. -/
def DualChoice.dualOf {α : Type} [One α] {n : Nat} (choice : DualChoice) (dual : Vector α n) :
    Vector α n :=
  match choice with
  | .unit => .replicate n 1
  | .keep => dual

namespace Group

open ClosureState

variable {α : Type} {n size : Nat} {p : Fin size → Partition n} {R : Replies (Console α) size}

/-! ## Small steps -/

/-- A failure would be seen from outside as another one, but there is none. -/
theorem proceeds_within {β τ : Fin size → Type} (cause : Cause)
    {actions : (r : Fin size) → Stateful (τ r) α (Console α) (β r)}
    {states : (r : Fin size) → τ r} {post : ((r : Fin size) → β r) → ((r : Fin size) → τ r) → Prop}
    (h : Proceeds R states post actions) :
    Proceeds R states post fun r => Discretization.within cause (actions r) := by
  have hrun : ∀ r, (Discretization.within cause (actions r)).run (states r) =
      (actions r).run (states r) >>= fun out => .done (match out.1 with
        | .error (.failed f) => .error (.failed (f.wrap cause))
        | .error (.violated v) => .error (.violated v)
        | .ok b => .ok b, out.2) := by
    intro r
    unfold Discretization.within
    refine congrArg ((actions r).run (states r) >>= ·) (funext fun out => ?_)
    obtain ⟨(_ | _) | _, s⟩ := out <;> rfl
  unfold Proceeds
  simp only [hrun]
  apply Attains.bind h _
  rintro _ ⟨b, s, hpost, rfl⟩
  exact .done _ ⟨b, s, hpost, rfl⟩

theorem achieves_tellOnRoot {σ : Fin size → Type} (hown : ∀ q, R.shared q = false)
    (D : (r : Fin size) → Discretization (σ r) α (Console α) (p r)) (event : Event α) :
    Achieves R (fun out => out = fun _ => ()) fun r => (D r).tellOnRoot event := by
  refine .of_alone fun r => ?_
  unfold Discretization.tellOnRoot
  split
  · exact .ask _ _ (hown _) fun _ _ => .done _ rfl
  · exact .done _ rfl

theorem achieves_tellReport {σ : Fin size → Type} (hown : ∀ q, R.shared q = false)
    (D : (r : Fin size) → Discretization (σ r) α (Console α) (p r)) (report : Report α) :
    Achieves R (fun out => out = fun _ => ()) fun r => (D r).tellReport report := by
  unfold Discretization.tellReport
  refine (achieves_tellOnRoot hown D _).andThen _ ?_
  rintro _ rfl
  refine (achieves_tellOnRoot hown D _).andThen _ ?_
  rintro _ rfl
  cases report.passed with
  | true => exact .pure rfl
  | false => exact achieves_tellOnRoot hown D _

variable [Arithmetic α] {x dual : Vector α n} {states : (r : Fin size) → ClosureState α (p r)}

/-- The dual is replaced, if that is the choice. -/
theorem proceeds_initializeDual (S : (r : Fin size) → ClosureSystem α (p r)) (choice : DualChoice)
    (h : Share x dual states) :
    Proceeds R states (fun _ s => Share x (choice.dualOf dual) s) fun r =>
      (S r).discretization.initializeDual choice := by
  cases choice with
  | keep => exact .pure h
  | unit =>
    refine (Proceeds.modify _).mono ?_
    rintro _ _ rfl
    refine ⟨h.solution, fun r => ?_⟩
    show (states r).dual.fill 1 = _
    have hones : dual.mapIdx (fun _ _ => (1 : α)) = .replicate n 1 := by
      ext i hi
      rw [Vector.getElem_mapIdx, Vector.getElem_replicate]
    rw [h.dual r, LocalVector.fill, LocalVector.mapEntries_ofVector, hones]
    rfl

/-! ## Differences -/

/-- The function of which samples are taken: the inner product of the residuals of the ranks at a
state and the dual. -/
def sampled (p : Fin size → Partition n) (residual : Fin size → Vector α n → Vector α n)
    (dual : Vector α n) (y : Vector α n) : α :=
  product p (fun r => residual r y) dual

/-- A sample on all ranks is the value at the perturbed solution. -/
def Samples (p : Fin size → Partition n) (residual : Fin size → Vector α n → Vector α n)
    (x dual : Vector α n) (perturbations : List (Perturbation α)) (v : Fin size → α) : Prop :=
  v = fun _ => sampled p residual dual (shift x perturbations)

/-- The samples of a system answer the requests of an assembly, and keep what the ranks share. -/
theorem answers_sample (hown : ∀ q, R.shared q = false) (S : (r : Fin size) → ClosureSystem α (p r))
    (hdivide : Partition.Divide p) {residual : Fin size → Vector α n → Vector α n}
    (hresidual : ∀ r y, (S r).residual n y = .ok (residual r y)) :
    Answers (.sampling size (Samples p residual x dual)) R (Share x dual) fun r =>
      ((S r).discretization : Discretization _ α (Console α) (p r)).sample.answer
        Discretization.recordProgress where
  alone r
    | .note progress, _, states, hstates => by
      refine .ask _ _ (hown _) fun _ _ => .done _ ⟨(), states r, trivial, ?_, rfl⟩
      rw [Function.update_eq_self]
      exact hstates
  together
    | .sample perturbations, _, states, hstates => by
      -- All ranks get the same reply, and are left with the solution that they had.
      have hsample := proceeds_sample (R := R) S hdivide hstates perturbations fun r =>
        hresidual r (shift x perturbations)
      apply Attains.bind hsample _
      rintro _ ⟨v, s, ⟨hv, hs⟩, rfl⟩
      exact .done _ ⟨_, s, ⟨⟨v, hv, rfl⟩, hs⟩, rfl⟩

variable [Magnitude α]

/-- The ranks hold their own rows of the estimates for the sampled function. -/
def Estimated (residual : Fin size → Vector α n → Vector α n) (x dual : Vector α n)
    (a : Assembler α) (pattern : Fin size → Occupancy) (differences : GroupMatrix α p) : Prop :=
  ∃ t, Assembler.Found (Samples p residual x dual) a.step.size (fun _ => a.dropTolerance)
    (Assembler.anyHolds pattern) (upperPairs n) t ∧
      differences = fun r => .ofEntries (p r) n ((t r).deposits (p r)).entries

theorem Estimated.columns_eq {residual : Fin size → Vector α n → Vector α n} {x dual : Vector α n}
    {a : Assembler α} {pattern : Fin size → Occupancy} {differences : GroupMatrix α p}
    (h : Estimated residual x dual a pattern differences) (r : Fin size) :
    (differences r).columns = n := by
  obtain ⟨t, _, rfl⟩ := h
  rfl

private theorem eq_map_of_forall₂ {β γ : Type} {f : β → γ} {ds : List β} {xs : List γ}
    (h : List.Forall₂ (fun d x => x = f d) ds xs) : xs = ds.map f := by
  induction h with
  | nil => rfl
  | cons hx _ ih => rw [hx, ih, List.map_cons]

omit [Magnitude α] in
/-- All ranks obtain the same estimate: the mixed derivative of the sampled function. -/
theorem eq_of_estimate {residual : Fin size → Vector α n → Vector α n} {h : α} {i j : Fin n}
    {v : Fin size → α} (hv : Assembler.Estimate (Samples p residual x dual) h i j v) :
    v = fun _ => (mixedPartial (m := Id) (sampled p residual dual) x i j h).1 := by
  obtain ⟨samples, hsamples, rfl⟩ := hv
  have hvalues : samples = grid.map fun d _ => sampled p residual dual (perturbed x i j h d) := by
    refine eq_map_of_forall₂ (hsamples.imp fun d v hv => ?_)
    rw [hv, shift_gridPerturbations]
  rw [mixedPartial_eq, hvalues]
  simp only [List.map_map]
  rfl

/-- The estimates are determined. -/
theorem Estimated.unique {residual : Fin size → Vector α n → Vector α n} {a : Assembler α}
    {pattern : Fin size → Occupancy} {A B : GroupMatrix α p}
    (hA : Estimated residual x dual a pattern A) (hB : Estimated residual x dual a pattern B) :
    A = B := by
  obtain ⟨t, ht, rfl⟩ := hA
  obtain ⟨t', ht', rfl⟩ := hB
  have hvalue : ∀ (i j : Fin n) v,
      Assembler.Estimate (Samples p residual x dual) a.step.size i j v →
        v = fun _ => (mixedPartial (m := Id) (sampled p residual dual) x i j a.step.size).1 :=
    fun _ _ _ => eq_of_estimate
  funext r
  rw [Assembler.found_eq ht hvalue r, Assembler.found_eq ht' hvalue r]

/-- What the owner of a row reads from the matrix of differences. -/
theorem Estimated.get?_eq {residual : Fin size → Vector α n → Vector α n} {a : Assembler α}
    {pattern : Fin size → Occupancy} {differences : GroupMatrix α p}
    (h : Estimated residual x dual a pattern differences) {r : Fin size} {i : Fin n}
    (hi : i.val ∈ (p r).owned) (j : Fin n) :
    let value := (mixedPartial (m := Id) (sampled p residual dual) x (min i j) (max i j)
      a.step.size).1
    (differences r).get? i j = some
      (if Assembler.anyHolds pattern (min i j : Fin n) (max i j : Fin n) = true ∧
          Magnitude.less (Magnitude.abs value) a.dropTolerance = false then value
        else 0) := by
  obtain ⟨t, hfound, rfl⟩ := h
  have hvalue : ∀ (i j : Fin n) v,
      Assembler.Estimate (Samples p residual x dual) a.step.size i j v →
        v = fun _ => (mixedPartial (m := Id) (sampled p residual dual) x i j a.step.size).1 :=
    fun _ _ _ => eq_of_estimate
  exact Assembler.get?_found hfound hvalue hi j

/-- All ranks obtain the matrix of differences. -/
theorem proceeds_differenceMatrix (hown : ∀ q, R.shared q = false)
    (S : (r : Fin size) → ClosureSystem α (p r)) (hdivide : Partition.Divide p)
    {residual : Fin size → Vector α n → Vector α n}
    (hresidual : ∀ r y, (S r).residual n y = .ok (residual r y))
    (h : Share x dual states) (a : Assembler α) (pattern : Fin size → Occupancy)
    (hshape : ∀ r, (pattern r).rows = n ∧ (pattern r).columns = n) :
    Proceeds R states
      (fun out s => Estimated residual x dual a pattern out ∧ Share x dual s)
      fun r => (S r).discretization.differenceMatrix a (pattern r) := by
  have hassemble := (Assembler.issues_assemble (S := Samples p residual x dual) a.step
    (fun _ => a.dropTolerance) (fun r => (S r).place) p pattern hshape).attains
  have hserved := Attains.serve hassemble (answers_sample hown S hdivide hresidual) h
  refine hserved.andThen _ ?_
  rintro _ s ⟨⟨M, hM, rfl⟩, hs⟩
  exact .pure ⟨hM, hs⟩

/-! ## Both matrices -/

/-- All ranks obtain both matrices: the estimates at the solution and with the chosen dual, and the
Hessian that the system assembles there. -/
theorem proceeds_bothMatrices (hown : ∀ q, R.shared q = false)
    (S : (r : Fin size) → ClosureSystem α (p r)) (hdivide : Partition.Divide p)
    {residual : Fin size → Vector α n → Vector α n}
    (hresidual : ∀ r y, (S r).residual n y = .ok (residual r y))
    (h : Share x dual states) {settings : Settings α} {step : Step α}
    (hstep : Step.ofSize settings.step = .ok step)
    (hshape : ∀ r, (S r).pattern.rows = n ∧ (S r).pattern.columns = n) {rule : HessianRule α}
    (hrule : ∀ r, (S r).hessian? = some rule) {H : SparseMatrix α}
    (hH : rule n x (settings.dual.dualOf dual) = .ok H) (hrows : H.rows = n ∧ H.columns = n) :
    Proceeds R states
      (fun out _ => Estimated residual x (settings.dual.dualOf dual)
          ⟨step, settings.dropTolerance⟩ (fun r => (S r).pattern.occupancy) (fun r => (out r).1) ∧
        ∀ r, (out r).2.part = H.restrict (p r).owns)
      fun r => (S r).discretization.bothMatrices settings := by
  -- The reference is assembled twice, before the differences and after them; the second one counts.
  have hreference : ∀ s, Share x (settings.dual.dualOf dual) s →
      Proceeds R s
        (fun _ s => Share x (settings.dual.dualOf dual) s ∧
          ∀ r, ∃ A, (s r).hessian? = some A ∧ A.part = H.restrict (p r).owns)
        fun r => (S r).discretization.assembleReference := fun s hs =>
    proceeds_within .reference
      (proceeds_assembleHessian S hdivide hs (fun r => hresidual r x) hrule hH hrows)
  unfold Discretization.bothMatrices
  refine (proceeds_initializeDual S settings.dual h).andThen _ ?_
  intro _ s hs
  refine (hreference s hs).andThen _ ?_
  rintro _ s ⟨hs, -⟩
  simp only [hstep]
  refine (proceeds_within .differences (proceeds_differenceMatrix hown S hdivide hresidual hs _ _
    hshape)).andThen _ ?_
  rintro differences s ⟨hdifferences, hs⟩
  refine (hreference s hs).andThen _ ?_
  rintro _ s ⟨hs, hA⟩
  choose A hsome hpart using hA
  have hshown : ∀ r, ((S r).discretization (P := Console α)).hessian? (s r) = some (A r) := hsome
  refine Proceeds.get.andThen _ ?_
  rintro shown _ ⟨hget, -⟩
  simp only [hget, hshown]
  exact .pure ⟨hdifferences, hpart⟩

end Group

end DualHessian
