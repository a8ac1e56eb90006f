import DualHessian.Proofs.System.Assemblies
import Mathlib.Algebra.Order.Field.Rat

/-!
# What a system keeps of its history

A system is assembled again and again while its solution and its dual are written to. Some
assemblies ask for a Jacobian and are refused, others fail halfway. What the system keeps of them
relates to different ones: the number of assemblies to all, the right-hand side to the latest one
that has evaluated the residual, and the Hessian to the latest one that has obtained a Hessian.

* `SystemAction` is something that is done to a system on all ranks, and `Discretization.doAll` does
  one after the other.
* `AssemblyCall` is an assembly with what the ranks hold at the time. `SystemAction.calls` lists
  those of a history.
* `Group.UpToDate` says how the states of the ranks follow from the calls so far. One action keeps
  it (`Group.proceeds_act`), and so do all of them (`Group.proceeds_doAll`).
* `Description.up_to_date` is this for the systems built from one description.
-/

namespace DualHessian

/-! ## Histories -/

section Histories

variable {α : Type} {n size : Nat} {p : Fin size → Partition n}

/-- What the ranks of a group hold of the solution and of the dual. -/
structure Holdings (α : Type) {n size : Nat} (p : Fin size → Partition n) where
  /-- The parts of the solution. -/
  solutions : (r : Fin size) → LocalVector α (p r)
  /-- The parts of the dual. -/
  duals : (r : Fin size) → LocalVector α (p r)

/-- The parts of a solution and of a dual. -/
def Holdings.ofVectors (p : Fin size → Partition n) (x dual : Vector α n) : Holdings α p :=
  ⟨fun r => .ofVector (p r) x, fun r => .ofVector (p r) dual⟩

/-- Something that is done to a system on all ranks. -/
inductive SystemAction (α : Type) {n size : Nat} (p : Fin size → Partition n) where
  /-- Each rank changes what it holds of the solution. -/
  | onSolution (change : (r : Fin size) → LocalVector α (p r) → LocalVector α (p r))
  /-- Each rank changes what it holds of the dual. -/
  | onDual (change : (r : Fin size) → LocalVector α (p r) → LocalVector α (p r))
  /-- All ranks assemble. -/
  | assemble (request : Derivatives)

/-- An assembly with what the ranks hold at the time. -/
structure AssemblyCall (α : Type) {n size : Nat} (p : Fin size → Partition n) where
  /-- What is asked for. -/
  request : Derivatives
  /-- The parts of solution and dual. -/
  held : Holdings α p

namespace SystemAction

/-- What the ranks hold after an action. -/
def after (held : Holdings α p) : SystemAction α p → Holdings α p
  | onSolution change => { held with solutions := fun r => change r (held.solutions r) }
  | onDual change => { held with duals := fun r => change r (held.duals r) }
  | assemble _ => held

/-- The assembly that an action is, if it is one. -/
def call? (held : Holdings α p) : SystemAction α p → Option (AssemblyCall α p)
  | onSolution _ => none
  | onDual _ => none
  | assemble request => some ⟨request, held⟩

/-- The assemblies of a history, in their order. -/
def calls : Holdings α p → List (SystemAction α p) → List (AssemblyCall α p)
  | _, [] => []
  | held, action :: rest => (action.call? held).toList ++ calls (action.after held) rest

end SystemAction

namespace Discretization

variable {σ : Type} {P : Interface}

/-- Does what an action does on one rank. It is told how an assembly has ended. -/
def act {r : Fin size} (D : Discretization σ α P (p r)) :
    SystemAction α p → Stateful σ α P (Option (Except Stop Unit))
  | .onSolution change => do
    modify (D.changeSolution (change r))
    return none
  | .onDual change => do
    modify fun s => D.setDual (change r (D.dual s)) s
    return none
  | .assemble request => do
    let outcome ← ExceptT.lift (D.assemble request).run
    return some outcome

/-- Does one action after the other and returns how the assemblies have ended. One that has stopped
early does not keep the others from being done. -/
def doAll {r : Fin size} (D : Discretization σ α P (p r)) :
    List (SystemAction α p) → Stateful σ α P (List (Except Stop Unit))
  | [] => return []
  | action :: rest => do
    let outcome? ← D.act action
    let outcomes ← D.doAll rest
    return outcome?.toList ++ outcomes

end Discretization

namespace AssemblyCall

variable [Arithmetic α]

/-- The state at which a rank evaluates the closures. -/
def state (call : AssemblyCall α p) (r : Fin size) : Vector α n :=
  Group.view call.held.solutions r

/-- The dual with which all ranks evaluate the Hessian. -/
def dual (call : AssemblyCall α p) : Vector α n := Group.ownersVector call.held.duals

/-- How an assembly ends on a rank. -/
def outcome (residual : ResidualRule α) (rule? : Option (HessianRule α)) (call : AssemblyCall α p)
    (r : Fin size) : Except Stop Unit :=
  assemblyOutcome residual rule? call.request (call.state r) call.dual

/-- The residual that a rank obtains by an assembly. -/
def residual? (residual : ResidualRule α) (call : AssemblyCall α p) (r : Fin size) :
    Option (Vector α n) :=
  obtainedResidual residual call.request (call.state r)

/-- The Hessian that a rank obtains by an assembly. -/
def hessian? (residual : ResidualRule α) (rule? : Option (HessianRule α)) (call : AssemblyCall α p)
    (r : Fin size) : Option (SparseMatrix α) :=
  obtainedHessian residual rule? call.request (call.state r) call.dual

end AssemblyCall

end Histories

namespace Group

variable {α : Type} [Arithmetic α] {P : Interface} {n size : Nat} {p : Fin size → Partition n}
  {R : Replies P size} {residual : ResidualRule α} {rule? : Option (HessianRule α)}
  {S : (r : Fin size) → ClosureSystem α (p r)}

/-- The states of the ranks are those that follow from the assemblies so far. -/
structure UpToDate (residual : ResidualRule α) (rule? : Option (HessianRule α))
    (held : Holdings α p) (calls : List (AssemblyCall α p))
    (states : (r : Fin size) → ClosureState α (p r)) : Prop where
  /-- No assembly has changed the solution. -/
  solution : ∀ r, (states r).solution = held.solutions r
  /-- No assembly has changed the dual. -/
  dual : ∀ r, (states r).dual = held.duals r
  /-- The assemblies are counted, except for those that have been refused a Jacobian. -/
  assemblies : ∀ r, (states r).assemblies =
    calls.countP fun call => !call.request.wantsJacobian
  /-- The right-hand side is the latest residual, also if the assembly has gone wrong after it. -/
  rightHandSide : ∀ r, (states r).rightHandSide =
    ((calls.filterMap fun call => call.residual? residual r).getLast?).elim (.zeros (p r))
      (.ofVector (p r))
  /-- The Hessian is the rows of the latest one that has been obtained. -/
  hessian : ∀ r, (states r).hessian?.map RowMatrix.part =
    ((calls.filterMap fun call => call.hessian? residual rule? r).getLast?).map
      (·.restrict (p r).owns)

variable {held : Holdings α p} {calls : List (AssemblyCall α p)}
  {states : (r : Fin size) → ClosureState α (p r)}

theorem upToDate_initial (p : Fin size → Partition n) (x dual : Vector α n) :
    UpToDate residual rule? (.ofVectors p x dual) [] fun r => .initial (p r) x dual :=
  ⟨fun _ => rfl, fun _ => rfl, fun _ => rfl, fun _ => rfl, fun _ => rfl⟩

omit [Arithmetic α] in
/-- The latest value, if there is one more element that may have one. -/
private theorem getLast?_filterMap_concat {β γ : Type} (f : β → Option γ) (l : List β) (b : β) :
    ((l ++ [b]).filterMap f).getLast? = (f b).or (l.filterMap f).getLast? := by
  cases h : f b <;> simp [List.filterMap_append, h]

/-- An assembly brings the states up to date. -/
theorem UpToDate.assembled (h : UpToDate residual rule? held calls states) (request : Derivatives) :
    UpToDate residual rule? held (calls ++ [⟨request, held⟩]) fun r =>
      (states r).assembled residual rule? request (view held.solutions r)
        (ownersVector held.duals) := by
  -- The new call comes last, so what it has obtained takes the place of what was latest before.
  refine ⟨h.solution, h.dual, fun r => ?_, fun r => ?_, fun r => ?_⟩
  · show (if request.wantsJacobian = true then _ else _) = _
    rw [h.assemblies r, List.countP_append, List.countP_singleton]
    cases request.wantsJacobian <;> rfl
  · rw [getLast?_filterMap_concat]
    show (obtainedResidual residual request (view held.solutions r)).elim
      (states r).rightHandSide (LocalVector.ofVector (p r)) = _
    rw [h.rightHandSide r]
    unfold AssemblyCall.residual? AssemblyCall.state
    cases obtainedResidual residual request (view held.solutions r) <;> rfl
  · rw [ClosureState.part_assembled, h.hessian r, getLast?_filterMap_concat]
    unfold AssemblyCall.hessian? AssemblyCall.state AssemblyCall.dual
    cases obtainedHessian residual rule? request (view held.solutions r)
      (ownersVector held.duals) <;> rfl

/-- An action of all ranks keeps the states up to date. -/
theorem proceeds_act (hdivide : Partition.Divide p) (hresidual : ∀ r, (S r).residual = residual)
    (hrule : ∀ r, (S r).hessian? = rule?) (h : UpToDate residual rule? held calls states)
    (action : SystemAction α p)
    (hsame : ∀ call ∈ action.call? held, AllOrNone residual call.request call.state) :
    Proceeds R states
      (fun b s => (b = fun r => (action.call? held).map (·.outcome residual rule? r)) ∧
        UpToDate residual rule? (action.after held) (calls ++ (action.call? held).toList) s)
      fun r => ((S r).discretization : Discretization _ α P (p r)).act action := by
  cases action with
  | onSolution change =>
    refine (Proceeds.modify _).andThen _ ?_
    rintro _ _ rfl
    refine .pure ⟨rfl, ?_⟩
    rw [SystemAction.call?, Option.toList_none, List.append_nil]
    exact ⟨fun r => congrArg (change r) (h.solution r), h.dual, h.assemblies, h.rightHandSide,
      h.hessian⟩
  | onDual change =>
    refine (Proceeds.modify _).andThen _ ?_
    rintro _ _ rfl
    refine .pure ⟨rfl, ?_⟩
    rw [SystemAction.call?, Option.toList_none, List.append_nil]
    exact ⟨h.solution, fun r => congrArg (change r) (h.dual r), h.assemblies, h.rightHandSide,
      h.hessian⟩
  | assemble request =>
    -- An assembly reads nothing but the solutions and the duals, and these are the ones held.
    have hstate : view (fun r => (states r).solution) = view held.solutions :=
      congrArg view (funext h.solution)
    have hdual : ownersVector (fun r => (states r).dual) = ownersVector held.duals :=
      congrArg ownersVector (funext h.dual)
    have hassemble := attains_assemble (R := R) (P := P) hdivide hresidual hrule hstate hdual
      (hsame ⟨request, held⟩ rfl)
    -- A failed assembly ends the attempt only, so the ranks go on in either case.
    have hattempt : Proceeds R states
        (fun b s => (b = fun r => AssemblyCall.outcome residual rule? ⟨request, held⟩ r) ∧
          s = fun r => (states r).assembled residual rule? request (view held.solutions r)
            (ownersVector held.duals))
        fun r => (ExceptT.lift ((S r).assemble request).run :
          Stateful (ClosureState α (p r)) α P (Except Stop Unit)) := by
      refine Proceeds.attempt (Attains.mono hassemble ?_)
      rintro _ rfl
      exact ⟨rfl, rfl⟩
    refine hattempt.andThen _ ?_
    rintro _ _ ⟨rfl, rfl⟩
    exact .pure ⟨rfl, h.assembled request⟩

/-- Actions of all ranks, one after the other, keep the states up to date. -/
theorem proceeds_doAll (hdivide : Partition.Divide p) (hresidual : ∀ r, (S r).residual = residual)
    (hrule : ∀ r, (S r).hessian? = rule?) (h : UpToDate residual rule? held calls states)
    (history : List (SystemAction α p))
    (hsame : ∀ call ∈ SystemAction.calls held history, AllOrNone residual call.request call.state) :
    Proceeds R states
      (fun b s =>
        (b = fun r => (SystemAction.calls held history).map (·.outcome residual rule? r)) ∧
        UpToDate residual rule? (history.foldl SystemAction.after held)
          (calls ++ SystemAction.calls held history) s)
      fun r => ((S r).discretization : Discretization _ α P (p r)).doAll history := by
  -- By induction on the history, with the calls that lie behind and what the ranks hold by now.
  induction history generalizing held calls states with
  | nil =>
    refine .pure ⟨rfl, ?_⟩
    rw [SystemAction.calls, List.append_nil]
    exact h
  | cons action rest ih =>
    rw [SystemAction.calls] at hsame ⊢
    have hfirst := proceeds_act (R := R) (P := P) hdivide hresidual hrule h action
      fun call hcall => hsame call (List.mem_append_left _ (Option.mem_toList.2 hcall))
    refine hfirst.andThen _ ?_
    rintro _ s ⟨rfl, hs⟩
    refine (ih hs fun call hcall => hsame call (List.mem_append_right _ hcall)).andThen _ ?_
    rintro _ s' ⟨rfl, hs'⟩
    refine .pure ⟨funext fun r => ?_, ?_⟩
    · cases action.call? held <;> rfl
    · rw [← List.append_assoc]
      exact hs'

end Group

/-! ## Systems built from one description -/

namespace Description

open SystemAction

variable {α : Type} [Arithmetic α]

/-- The systems of a group that are built from one description stay up to date. Between the
assemblies each rank may write whatever it likes to its parts of solution and dual. An assembly that
is asked for a Jacobian ends at once and changes nothing, on any rank and in any state. Whatever
else the group is asked for, the states of all ranks follow from the assemblies so far, each at the
solution and the dual of its time: no assembly changes them; all that have not been refused are
counted; the right-hand side is the residual of the latest one of these, also if it has failed
afterwards; and the Hessian is that of the latest one that was asked for a Hessian and successful.

If a residual breaks a precondition before a Hessian, it has to do so on all ranks, since the others
would wait for the dual of this rank. -/
theorem up_to_date {size : Nat} (hsize : 0 < size) {c : Fin size → Place}
    (hc : ∀ r, (c r).rank = r ∧ (c r).size = size) (d : Description α)
    {residual : ResidualRule α} {pattern : Pattern} {n : Nat}
    (hresidual : d.residual? = some residual) (hpattern : d.pattern? = some pattern)
    (hrows : pattern.rows = n) (hcolumns : pattern.columns = n) {x dual : Vector α n}
    (hx : vectorOr n d.solution? = x.toList) (hdual : vectorOr n d.dual? = dual.toList) :
    ∃ (p : Fin size → Partition n) (S : (r : Fin size) → ClosureSystem α (p r)),
      Partition.Divide p ∧
      (∀ r, d.build (c r) = .ok ⟨n, p r, S r, .initial (p r) x dual⟩) ∧
      (∀ r request (s : ClosureState α (p r)), request.wantsJacobian = true →
        (((S r).assemble request : Stateful _ α .closed Unit).run s =
          .done (.error (.failed (.of .noJacobian)), s))) ∧
      ∀ history : List (SystemAction α p),
        (∀ call ∈ calls (.ofVectors p x dual) history,
          Group.AllOrNone residual call.request call.state) →
        ∃ s : (r : Fin size) → ClosureState α (p r),
          Group.Returns
            (fun r => ((S r).discretization.doAll history).run (.initial (p r) x dual))
            (fun r => (.ok ((calls (.ofVectors p x dual) history).map
              (·.outcome residual d.hessian? r)), s r)) ∧
          Group.UpToDate residual d.hessian? (history.foldl after (.ofVectors p x dual))
            (calls (.ofVectors p x dual) history) s := by
  subst hrows
  obtain ⟨p, hdivide, hbuild⟩ := build_ok hsize hc d hresidual hpattern hcolumns hx hdual
  let S (r : Fin size) : ClosureSystem α (p r) :=
    ⟨c r, pattern.restrict (p r).owns, residual, d.hessian?⟩
  refine ⟨p, S, hdivide, hbuild, fun r request s hrequest => ?_, fun history hsame => ?_⟩
  · unfold ClosureSystem.assemble
    rw [if_pos hrequest]
    rfl
  · obtain ⟨_, ⟨_, s, ⟨rfl, hs⟩, rfl⟩, hreturns⟩ :=
      (Group.proceeds_doAll (R := .closed size) (S := S) hdivide (fun _ => rfl) (fun _ => rfl)
        (Group.upToDate_initial p x dual) history hsame).returns
    exact ⟨s, hreturns, hs⟩

/-- A system of two degrees of freedom whose Hessian has the wrong shape as long as the first entry
of the dual is zero. -/
def gated : Description Rat where
  residual? := some fun n y => .ok (.replicate n (y.toList.foldl (· + ·) 0))
  hessian? := some fun n y dual => .ok (if dual[0]? = some 0 then .zeros 1 n else
    .ofEntries n n [⟨0, 0, y.toList.foldl (· + ·) 0⟩, ⟨1, 1, dual.toList.foldl (· + ·) 0⟩])
  pattern? := some (.banded 2 1)
  solution? := none
  dual? := none

/-- Two ranks are refused a Jacobian, obtain a Hessian of the wrong shape and then one of the right
shape, and assemble once more. One of them has written to its copies of both entries, which the
other one does not see. -/
theorem up_to_date_two_ranks :
    let p : Fin 2 → Partition 2 := Partition.mirrored
    let history : List (SystemAction Rat p) := [
      .assemble ⟨true, false, true⟩, .assemble .withHessian, .onDual fun _ v => v.set 0 3,
      .onSolution fun r v => if r = 0 then v.set 1 5 else v, .assemble .withHessian,
      .onSolution fun r v => if r = 0 then v.set 0 1 else v, .assemble .residualOnly]
    let wrong : Failure :=
      .wrap .invalidHessian (.of (.conflict (.shape (2, 2) (1, 2))))
    ∃ (S : (r : Fin 2) → ClosureSystem Rat (p r)) (s : (r : Fin 2) → ClosureState Rat (p r)),
      (∀ r, gated.build (.member r.val 2 r.isLt) =
        .ok ⟨2, p r, S r, .initial (p r) #v[0, 0] #v[0, 0]⟩) ∧
      Group.Returns
        (fun r => ((S r).discretization.doAll history).run (.initial (p r) #v[0, 0] #v[0, 0]))
        (fun r => (.ok [.error (.failed (.of .noJacobian)), .error (.failed wrong), .ok (), .ok ()],
          s r)) ∧
      (∀ r, (s r).assemblies = 3) ∧
      (∀ r, (s r).rightHandSide.get? 1 = some (if r = 0 then 6 else 0)) ∧
      ∀ r, ((s r).hessian?.map RowMatrix.part).bind (·.stored? r r) =
        some (if r = 0 then 5 else 3) := by
  intro p history wrong
  have hrows : (Pattern.banded 2 1).rows = 2 := rfl
  have hzero : vectorOr 2 (none : Option (List Rat)) = (#v[0, 0] : Vector Rat 2).toList := rfl
  obtain ⟨q, S, _, hbuild, _, hhistory⟩ :=
    up_to_date (by decide : 0 < 2) (c := fun r => .member r.val 2 r.isLt) (fun _ => ⟨rfl, rfl⟩)
      gated rfl rfl hrows rfl hzero hzero
  have hq : q = p := by
    funext r
    have hmirrored : ∃ system state, gated.build (.member r.val 2 r.isLt) =
        .ok ⟨2, p r, system, state⟩ := by
      match r with
      | 0 => exact ⟨_, _, rfl⟩
      | 1 => exact ⟨_, _, rfl⟩
    obtain ⟨system, state, hsystem⟩ := hmirrored
    exact eq_of_heq (BuiltSystem.mk.inj (Except.ok.inj ((hbuild r).symm.trans hsystem))).2.1
  subst hq
  obtain ⟨s, hreturns, hs⟩ := hhistory history fun call _ _ _ => .inl fun r => ⟨_, rfl⟩
  have houtcomes : ∀ r, (calls (.ofVectors p #v[0, 0] #v[0, 0]) history).map
      (·.outcome (fun n y => .ok (.replicate n (y.toList.foldl (· + ·) 0))) gated.hessian? r) =
        [.error (.failed (.of .noJacobian)), .error (.failed wrong), .ok (), .ok ()] := by
    decide +kernel
  refine ⟨S, s, hbuild, ?_, fun r => ?_, fun r => ?_, fun r => ?_⟩
  · simp only [houtcomes] at hreturns
    exact hreturns
  · rw [hs.assemblies r]
    rfl
  · rw [hs.rightHandSide r]
    revert r
    decide +kernel
  · rw [hs.hessian r]
    revert r
    decide +kernel

end Description

end DualHessian
