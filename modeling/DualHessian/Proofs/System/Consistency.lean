import DualHessian.Proofs.Distributed.Sums
import DualHessian.Proofs.System.Assemblies

/-!
# Copies of a solution stay the same

The ranks of a group hold overlapping parts of one solution. Each rank perturbs, restores and writes
its own copies, and puts the global state together anew for every evaluation. Nevertheless the group
behaves as if there were a single vector.

* `Operation.after`, `Operation.handed` and `Operation.outcome` are what an operation does to that
  vector: what it becomes, the states at which the residual is evaluated, and how the operation
  ends.
* `Group.Consistent` says that all ranks hold parts of one solution and have been at the same
  states. One operation keeps it (`Group.concludes_perform`), and so do all of them
  (`Group.proceeds_performAll`).
* `Description.consistent` is this for the systems built from one description.
-/

namespace DualHessian

/-! ## Operations on a single vector -/

section Operations

variable {α : Type} {n size : Nat}

variable [Arithmetic α]

/-- How the evaluation of the inner product of dual and residual ends. -/
def productOutcome (residual : ResidualRule α) (p : Fin size → Partition n)
    (dual x : Vector α n) : Except Stop α :=
  match residual n x with
  | .error v => .error (.violated v)
  | .ok y => .ok (Group.product p (fun _ => y) dual)

namespace Operation

/-- The solution after an operation. -/
def after (x : Vector α n) : Operation α → Vector α n
  | write index value => x.setIfInBounds index value
  | _ => x

/-- The states that an operation hands to the residual. -/
def handed (x : Vector α n) : Operation α → List (Vector α n)
  | sample perturbations => [shift x perturbations]
  | assemble request => if request.wantsJacobian then [] else [x]
  | write _ _ => []

/-- How an operation ends. -/
def outcome (residual : ResidualRule α) (hessian? : Option (HessianRule α))
    (p : Fin size → Partition n) (dual x : Vector α n) : Operation α → Except Stop (Option α)
  | sample perturbations => (productOutcome residual p dual (shift x perturbations)).map some
  | assemble request => (assemblyOutcome residual hessian? request x dual).map fun _ => none
  | write _ _ => .ok none

/-- The states that operations hand to the residual, one after the other. -/
def allHanded : Vector α n → List (Operation α) → List (Vector α n)
  | _, [] => []
  | x, operation :: rest => operation.handed x ++ allHanded (operation.after x) rest

/-- How operations end that are done one after the other. -/
def outcomes (residual : ResidualRule α) (hessian? : Option (HessianRule α))
    (p : Fin size → Partition n) (dual : Vector α n) :
    Vector α n → List (Operation α) → List (Except Stop (Option α))
  | _, [] => []
  | x, operation :: rest =>
    operation.outcome residual hessian? p dual x ::
      outcomes residual hessian? p dual (operation.after x) rest

end Operation

end Operations

/-- Every copy of an entry is the value that the owner of the entry holds. -/
def GhostsCurrent {α : Type} {n size : Nat} {p : Fin size → Partition n}
    (v : (r : Fin size) → LocalVector α (p r)) : Prop :=
  ∀ r s, ∀ i ∈ (p r).owned, i ∈ (p s).relevant → (v s).get? i = (v r).get? i

/-- The parts of one vector are copies of each other. -/
theorem GhostsCurrent.of_parts {α : Type} {n size : Nat} {p : Fin size → Partition n}
    {v : (r : Fin size) → LocalVector α (p r)} {x : Vector α n}
    (h : ∀ r, v r = .ofVector (p r) x) : GhostsCurrent v := by
  intro r s i hi hs
  rw [h r, h s, LocalVector.get?_ofVector, LocalVector.get?_ofVector, if_pos hs,
    if_pos ((p r).owned_subset i hi)]

/-- A part of a vector in which an entry is set is the part of the vector with the entry set. -/
theorem LocalVector.set_ofVector {α : Type} {n : Nat} (p : Partition n) (x : Vector α n)
    (index : Nat) (value : α) :
    (ofVector p x).set index value = ofVector p (x.setIfInBounds index value) := by
  refine (mapEntries_ofVector _ x).trans (congrArg (ofVector p) ?_)
  ext k hk
  simp [Vector.getElem_setIfInBounds, eq_comm]

namespace Group

open ClosureState Stateful

variable {α : Type} [Arithmetic α] {P : Interface} {n size : Nat} {p : Fin size → Partition n}
  {R : Replies P size} {residual : ResidualRule α} {hessian? : Option (HessianRule α)}
  {S : (r : Fin size) → ClosureSystem α (p r)} {x dual : Vector α n}

/-! ## Assembling -/

section Assembling

variable {states : (r : Fin size) → ClosureState α (p r)}

/-- The evaluation of the closures at the solution that all ranks share. -/
theorem concludes_assembleAt (hdivide : Partition.Divide p) (h : Share x dual states)
    (hresidual : ∀ r, (S r).residual = residual) (hrule : ∀ r, (S r).hessian? = hessian?)
    {request : Derivatives} (hrequest : request.wantsJacobian = false) :
    Concludes R states
      (fun result s => result = closuresOutcome residual hessian? request x dual ∧ Share x dual s ∧
        ∀ y, residual n x = .ok y → ∀ r, (s r).rightHandSide = .ofVector (p r) y)
      fun r => ((S r).assembleAt request x : Stateful (ClosureState α (p r)) α P Unit) := by
  have hdual : ownersVector (fun r => (states r).dual) = dual := by
    rw [← ownersVector_ofVector hdivide dual]
    exact congrArg ownersVector (funext h.dual)
  refine Attains.mono (attains_assembleAt hdivide hresidual hrule hrequest (fun _ => x) hdual
    (.of_shared x)) ?_
  rintro out rfl
  refine ⟨assemblyOutcome residual hessian? request x dual, fun r => _, ⟨?_, ?_, ?_⟩, rfl⟩
  · simp only [assemblyOutcome, hrequest, Bool.false_eq_true, if_false]
  · exact ⟨h.solution, h.dual⟩
  · intro y hy r
    simp only [assembled, obtainedResidual, hrequest, hy]
    rfl

end Assembling

/-! ## Watched systems -/

/-- All ranks hold their parts of one solution and of one dual, and have handed the same states to
the residual. -/
structure Consistent (x dual : Vector α n) (handed : List (Vector α n))
    (states : (r : Fin size) → List (Vector α n) × ClosureState α (p r)) : Prop where
  /-- The vectors are parts of the same ones. -/
  share : Share x dual fun r => (states r).2
  /-- The lists are the same. -/
  handed_eq : ∀ r, (states r).1 = handed

variable {handed : List (Vector α n)}
  {states : (r : Fin size) → List (Vector α n) × ClosureState α (p r)}

/-- An assembly hands the shared solution to the residual, on all ranks. -/
theorem concludes_assembleWatched (hdivide : Partition.Divide p)
    (h : Consistent x dual handed states) (hresidual : ∀ r, (S r).residual = residual)
    (hrule : ∀ r, (S r).hessian? = hessian?) {request : Derivatives}
    (hrequest : request.wantsJacobian = false) :
    Concludes R states
      (fun result s => result = closuresOutcome residual hessian? request x dual ∧
        Consistent x dual (handed ++ [x]) s ∧
          ∀ y, residual n x = .ok y → ∀ r, (s r).2.rightHandSide = .ofVector (p r) y)
      fun r => ((S r).assembleWatched request :
        Stateful (List (Vector α n) × ClosureState α (p r)) α P Unit) := by
  unfold ClosureSystem.assembleWatched
  simp only [hrequest, Bool.false_eq_true, if_false]
  refine (Proceeds.modify _).beside.bind _ ?_
  rintro _ s ⟨hs, hhanded⟩
  have hcounted : Share x dual fun r => (s r).2 := by
    rw [hs]
    exact ⟨h.share.solution, h.share.dual⟩
  refine (proceeds_globalState hdivide hcounted).beside.bind _ ?_
  rintro _ s' ⟨⟨rfl, hs'⟩, hhanded'⟩
  refine (Proceeds.modify _).bind _ ?_
  rintro _ _ rfl
  let noted : (r : Fin size) → List (Vector α n) × ClosureState α (p r) :=
    fun r => ((s' r).1 ++ [x], (s' r).2)
  have hshare : Share x dual fun r => (noted r).2 := hs' ▸ hcounted
  refine (concludes_assembleAt hdivide hshare hresidual hrule hrequest).beside.mono ?_
  rintro _ t ⟨⟨rfl, ht, hright⟩, hnoted⟩
  refine ⟨rfl, ⟨ht, fun r => ?_⟩, hright⟩
  have hbefore : (s' r).1 = handed := (hhanded' r).trans ((hhanded r).trans (h.handed_eq r))
  rw [← hbefore]
  exact hnoted r

/-- An assembly hands the shared solution to the residual, unless it is asked for a Jacobian. -/
theorem concludes_assemble (hdivide : Partition.Divide p) (h : Consistent x dual handed states)
    (hresidual : ∀ r, (S r).residual = residual) (hrule : ∀ r, (S r).hessian? = hessian?)
    (request : Derivatives) :
    Concludes R states
      (fun result s => result = assemblyOutcome residual hessian? request x dual ∧
        Consistent x dual (handed ++ (Operation.assemble request).handed x) s)
      fun r => ((S r).assembleWatched request :
        Stateful (List (Vector α n) × ClosureState α (p r)) α P Unit) := by
  have hhanded : (Operation.assemble request).handed x =
      if request.wantsJacobian then [] else [x] := rfl
  rw [hhanded]
  cases hrequest : request.wantsJacobian with
  | true =>
    unfold ClosureSystem.assembleWatched assemblyOutcome
    simp only [hrequest, if_true, List.append_nil]
    exact .throw ⟨rfl, h⟩
  | false =>
    refine (concludes_assembleWatched hdivide h hresidual hrule hrequest).mono ?_
    rintro _ s ⟨rfl, hs, -⟩
    exact ⟨by simp [assemblyOutcome, hrequest], hs⟩

/-- The inner product of dual and residual, on all ranks. -/
theorem concludes_product (hdivide : Partition.Divide p) (h : Consistent x dual handed states)
    (hresidual : ∀ r, (S r).residual = residual) (hrule : ∀ r, (S r).hessian? = hessian?) :
    Concludes R states
      (fun result s => result = productOutcome residual p dual x ∧
        Consistent x dual (handed ++ [x]) s)
      fun r => (do
        (S r).assembleWatched .residualOnly
        let s ← get
        (s.2.rightHandSide.dot s.2.dual : Task α P α)) := by
  refine (concludes_assembleWatched hdivide h hresidual hrule rfl).bind _ ?_ ?_
  · rintro _ s ⟨hresult, hs, hright⟩
    obtain ⟨y, hy⟩ := closuresOutcome_eq_ok hresult.symm
    refine Proceeds.get.bind _ ?_
    rintro _ _ ⟨rfl, rfl⟩
    refine Concludes.of_proceeds (Proceeds.lift (achieves_dot _ _)) ?_
    rintro _ _ ⟨rfl, rfl⟩
    refine ⟨_, rfl, ?_, hs⟩
    simp only [productOutcome, hy, hright y hy, hs.share.dual]
    rfl
  · rintro stop s ⟨hresult, hs, -⟩
    obtain ⟨v, hv, rfl⟩ := closuresOutcome_eq_error rfl hresult.symm
    exact ⟨by rw [productOutcome, hv], hs⟩

/-- A sample hands the perturbed solution to the residual, on all ranks. -/
theorem concludes_sample (hdivide : Partition.Divide p) (h : Consistent x dual handed states)
    (hresidual : ∀ r, (S r).residual = residual) (hrule : ∀ r, (S r).hessian? = hessian?)
    (perturbations : List (Perturbation α)) :
    Concludes R states
      (fun result s => result = productOutcome residual p dual (shift x perturbations) ∧
        Consistent x dual (handed ++ [shift x perturbations]) s)
      fun r => ((S r).watched : Discretization _ α P (p r)).sample perturbations := by
  have hperturbed : Consistent (shift x perturbations) dual handed fun r =>
      ((S r).watched (P := P)).changeSolution (·.perturb perturbations) (states r) :=
    ⟨h.share.perturb perturbations, h.handed_eq⟩
  -- The saved entries bring back the solution that the ranks shared before.
  refine attains_withPerturbation _ perturbations
    (concludes_product hdivide hperturbed hresidual hrule) ?_
  rintro _ ⟨_, s, ⟨rfl, hs⟩, rfl⟩
  refine ⟨_, _, ?_, rfl⟩
  refine ⟨rfl, ⟨fun r => ?_, hs.share.dual⟩, hs.handed_eq⟩
  show (s r).2.solution.setAll ((states r).2.solution.perturbedEntries perturbations).reverse = _
  rw [hs.share.solution r, h.share.solution r, ← LocalVector.perturb_ofVector,
    LocalVector.setAll_perturb]

/-! ## Sequences of operations -/

/-- One operation, on all ranks. -/
theorem concludes_perform (hdivide : Partition.Divide p) (h : Consistent x dual handed states)
    (hresidual : ∀ r, (S r).residual = residual) (hrule : ∀ r, (S r).hessian? = hessian?)
    (operation : Operation α) :
    Concludes R states
      (fun result s => result = operation.outcome residual hessian? p dual x ∧
        Consistent (operation.after x) dual (handed ++ operation.handed x) s)
      fun r => ((S r).watched : Discretization _ α P (p r)).perform operation := by
  cases operation with
  | sample perturbations =>
    refine (concludes_sample hdivide h hresidual hrule perturbations).map some ?_
    rintro _ s ⟨rfl, hs⟩
    exact ⟨rfl, hs⟩
  | assemble request =>
    refine (concludes_assemble hdivide h hresidual hrule request).map (fun _ => none) ?_
    rintro _ s ⟨rfl, hs⟩
    exact ⟨rfl, hs⟩
  | write index value =>
    refine (Proceeds.modify _).bind _ ?_
    rintro _ _ rfl
    refine Concludes.pure ⟨rfl, ⟨fun r => ?_, h.share.dual⟩, fun r => ?_⟩
    · show ((states r).2.solution.set index value) = _
      rw [h.share.solution r, LocalVector.set_ofVector]
      rfl
    · exact (h.handed_eq r).trans (List.append_nil _).symm

/-- Operations one after the other, on all ranks. -/
theorem proceeds_performAll (hdivide : Partition.Divide p)
    (h : Consistent x dual handed states) (hresidual : ∀ r, (S r).residual = residual)
    (hrule : ∀ r, (S r).hessian? = hessian?) (operations : List (Operation α)) :
    Proceeds R states
      (fun b s => (b = fun _ => Operation.outcomes residual hessian? p dual x operations) ∧
        Consistent (operations.foldl Operation.after x) dual
          (handed ++ Operation.allHanded x operations) s)
      fun r => ((S r).watched : Discretization _ α P (p r)).performAll operations := by
  unfold Discretization.performAll
  induction operations generalizing x handed states with
  | nil =>
    simp only [List.mapM_nil]
    refine .pure ⟨rfl, ?_⟩
    rw [Operation.allHanded, List.append_nil]
    exact h
  | cons operation operations ih =>
    simp only [List.mapM_cons]
    refine (concludes_perform hdivide h hresidual hrule operation).attempt.andThen _ ?_
    rintro _ s ⟨result, ⟨rfl, hs⟩, rfl⟩
    refine (ih hs).andThen _ ?_
    rintro _ s' ⟨rfl, hs'⟩
    refine .pure ⟨rfl, ?_⟩
    rw [Operation.allHanded, ← List.append_assoc]
    exact hs'

end Group

/-! ## Systems built from one description -/

namespace Description

open Operation

variable {α : Type} [Arithmetic α]

/-- The systems of a group that are built from one description stay consistent. They start with the
parts of one solution, and whatever they are told to do together, every copy of an entry is the
value of its owner afterwards: all ranks hold their parts of the vector that the operations lead to.
The operations end in the same way on all ranks, the samples with the same values. On the way all
ranks hand the same states to the residual, one after the other: the solution at that time, with the
offsets of a running sample added in their order. -/
theorem consistent {size : Nat} (hsize : 0 < size) {c : Fin size → Place}
    (hc : ∀ r, (c r).rank = r ∧ (c r).size = size) (d : Description α)
    {residual : ResidualRule α} {pattern : Pattern} {n : Nat}
    (hresidual : d.residual? = some residual) (hpattern : d.pattern? = some pattern)
    (hrows : pattern.rows = n) (hcolumns : pattern.columns = n) {x dual : Vector α n}
    (hx : vectorOr n d.solution? = x.toList) (hdual : vectorOr n d.dual? = dual.toList) :
    ∃ (p : Fin size → Partition n) (S : (r : Fin size) → ClosureSystem α (p r)),
      Partition.Divide p ∧ (∀ r, (S r).residual = residual) ∧
      (∀ r, d.build (c r) = .ok ⟨n, p r, S r, .initial (p r) x dual⟩) ∧
      GhostsCurrent (fun r => LocalVector.ofVector (p r) x) ∧
      ∀ operations : List (Operation α),
        (∃ s : (r : Fin size) → ClosureState α (p r),
          Group.Returns
            (fun r => ((S r).discretization.performAll operations).run (.initial (p r) x dual))
            (fun r => (.ok (outcomes residual d.hessian? p dual x operations), s r)) ∧
          GhostsCurrent (fun r => (s r).solution) ∧
          ∀ r, (s r).solution = .ofVector (p r) (operations.foldl after x)) ∧
        (∀ r, Stateful.Forgets ((S r).watched.performAll operations)
          ((S r).discretization.performAll operations : Stateful _ α .closed _)) ∧
        ∃ s : (r : Fin size) → ClosureState α (p r),
          Group.Returns
            (fun r => ((S r).watched.performAll operations).run ([], .initial (p r) x dual))
            (fun r => (.ok (outcomes residual d.hessian? p dual x operations),
              (allHanded x operations, s r))) := by
  subst hrows
  obtain ⟨p, hdivide, hbuild⟩ := build_ok hsize hc d hresidual hpattern hcolumns hx hdual
  let S (r : Fin size) : ClosureSystem α (p r) :=
    ⟨c r, pattern.restrict (p r).owns, residual, d.hessian?⟩
  have hstart : Group.Consistent x dual [] fun r => ([], ClosureState.initial (p r) x dual) :=
    ⟨ClosureState.share_initial p x dual, fun _ => rfl⟩
  refine ⟨p, S, hdivide, fun _ => rfl, hbuild, .of_parts fun _ => rfl, fun operations => ?_⟩
  -- The watched systems are followed, since only they record what is handed over; the systems
  -- themselves do the same without the record.
  have hforgets := fun r => ClosureSystem.forgets_performAll (P := .closed) (S r) operations
  have hwatched := Group.proceeds_performAll (R := .closed size) (S := S) hdivide hstart
    (fun _ => rfl) (fun _ => rfl) operations
  refine ⟨?_, hforgets, ?_⟩
  · have hplain : Group.Proceeds (.closed size) (fun r => .initial (p r) x dual)
        (fun b s => (b = fun _ => outcomes residual d.hessian? p dual x operations) ∧
          ∀ r, (s r).solution = .ofVector (p r) (operations.foldl after x))
        fun r => (S r).discretization.performAll operations :=
      .forget hforgets (hwatched.mono fun _ _ h => ⟨h.1, h.2.share.solution⟩)
    obtain ⟨_, ⟨_, s, ⟨rfl, hsolution⟩, rfl⟩, hreturns⟩ := hplain.returns
    exact ⟨s, hreturns, .of_parts hsolution, hsolution⟩
  · obtain ⟨_, ⟨_, s, ⟨rfl, hs⟩, rfl⟩, hreturns⟩ := hwatched.returns
    refine ⟨fun r => (s r).2, ?_⟩
    -- What has been recorded is the same on all ranks.
    have hhanded : ∀ r, s r = (allHanded x operations, (s r).2) :=
      fun r => Prod.ext (hs.handed_eq r) rfl
    simpa only [← hhanded] using hreturns

/-- A system with three degrees of freedom that are coupled to their neighbours, whose residual
squares them. -/
def squares : Description Rat where
  residual? := some fun _ y => .ok (y.map fun v => v * v)
  hessian? := none
  pattern? := some (.banded 3 1)
  solution? := some [1, 2, 3]
  dual? := some [1, 1, 1]

/-- Two ranks take a sample at an entry that one of them does not hold, set an entry that both of
them hold, and are refused a Hessian. -/
theorem consistent_two_ranks :
    let operations : List (Operation Rat) :=
      [.sample [⟨0, 1⟩, ⟨0, 2⟩], .write 1 7, .assemble .withHessian]
    let results : List (Except Stop (Option Rat)) :=
      [.ok (some 29), .ok none, .error (.failed (.of .noHessianGiven))]
    ∃ (p : Fin 2 → Partition 3) (S : (r : Fin 2) → ClosureSystem Rat (p r)),
      (∀ r, squares.build (.member r.val 2 r.isLt) =
        .ok ⟨3, p r, S r, .initial (p r) #v[1, 2, 3] #v[1, 1, 1]⟩) ∧
      (∃ s : (r : Fin 2) → ClosureState Rat (p r),
        Group.Returns
          (fun r => ((S r).discretization.performAll operations).run
            (.initial (p r) #v[1, 2, 3] #v[1, 1, 1]))
          (fun r => (.ok results, s r)) ∧
        ∀ r, (s r).solution = .ofVector (p r) #v[1, 7, 3]) ∧
      ∃ s : (r : Fin 2) → ClosureState Rat (p r),
        Group.Returns
          (fun r => ((S r).watched.performAll operations).run
            ([], .initial (p r) #v[1, 2, 3] #v[1, 1, 1]))
          (fun r => (.ok results, ([#v[4, 2, 3], #v[1, 7, 3]], s r))) := by
  intro operations results
  have hrows : (Pattern.banded 3 1).rows = 3 := rfl
  have hx : vectorOr 3 squares.solution? = (#v[1, 2, 3] : Vector Rat 3).toList := rfl
  have hdual : vectorOr 3 squares.dual? = (#v[1, 1, 1] : Vector Rat 3).toList := rfl
  obtain ⟨p, S, hdivide, _, hbuild, _, hconsistent⟩ :=
    consistent (by decide : 0 < 2) (c := fun r => .member r.val 2 r.isLt) (fun _ => ⟨rfl, rfl⟩)
      squares rfl rfl hrows rfl hx hdual
  obtain ⟨⟨s, hreturns, _, hsolution⟩, _, s', hwatched⟩ := hconsistent operations
  have hhanded : allHanded #v[1, 2, 3] operations = [#v[4, 2, 3], #v[1, 7, 3]] := by decide +kernel
  have hvalue (y : Vector Rat 3) (hy : y = #v[16, 4, 9]) :
      Group.product p (fun _ => y) #v[1, 1, 1] = 29 := by
    rw [Group.product_eq hdivide, hy]
    decide +kernel
  have hresults : outcomes (fun _ y => .ok (y.map fun v => v * v)) squares.hessian? p #v[1, 1, 1]
      #v[1, 2, 3] operations = results :=
    congrArg (fun value => (.ok (some value) :: results.tail : List (Except Stop (Option Rat))))
      (hvalue _ (by decide +kernel))
  rw [hresults] at hreturns hwatched
  rw [hhanded] at hwatched
  exact ⟨p, S, hbuild, ⟨s, hreturns, hsolution⟩, s', hwatched⟩

end Description

end DualHessian
