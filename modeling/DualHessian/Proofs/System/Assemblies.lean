import DualHessian.Proofs.System.Closures
import DualHessian.Proofs.System.Watching

/-!
# What an assembly does

The ranks of a group assemble a system together, whatever each of them holds of the solution and of
the dual. An assembly has three ways to stop early, and updates the state in between.

* `assemblyOutcome` is how an assembly at a global state ends; `obtainedResidual` and
  `obtainedHessian` are what it obtains before.
* `ClosureState.assembled` is the state of a rank after an assembly.
* `Group.attains_assemble` says that this is what all ranks come to.
-/

namespace DualHessian

section Outcomes

variable {α : Type} {n : Nat}

/-! ## How an assembly ends -/

/-- How the evaluation of a Hessian at a global state ends. -/
def hessianOutcome (hessian? : Option (HessianRule α)) (x dual : Vector α n) : Except Stop Unit :=
  match hessian? with
  | none => .error (.failed (.of .noHessianGiven))
  | some rule =>
    match rule n x dual with
    | .error v => .error (.violated v)
    | .ok H =>
      if H.rows = n ∧ H.columns = n then .ok ()
      else .error (.failed (ClosureSystem.shapeFailure n H))

/-- How the evaluation of the closures at a global state ends. -/
def closuresOutcome (residual : ResidualRule α) (hessian? : Option (HessianRule α))
    (request : Derivatives) (x dual : Vector α n) : Except Stop Unit :=
  match residual n x with
  | .error v => .error (.violated v)
  | .ok _ => if request.hessian then hessianOutcome hessian? x dual else .ok ()

/-- How an assembly ends. -/
def assemblyOutcome (residual : ResidualRule α) (hessian? : Option (HessianRule α))
    (request : Derivatives) (x dual : Vector α n) : Except Stop Unit :=
  if request.wantsJacobian then .error (.failed (.of .noJacobian))
  else closuresOutcome residual hessian? request x dual

variable {residual : ResidualRule α} {rule? : Option (HessianRule α)} {request : Derivatives}
  {x dual : Vector α n} {H : SparseMatrix α}

theorem closuresOutcome_eq_ok (h : closuresOutcome residual rule? request x dual = .ok ()) :
    ∃ y, residual n x = .ok y := by
  cases hy : residual n x with
  | ok y => exact ⟨y, rfl⟩
  | error v =>
    rw [closuresOutcome, hy] at h
    cases h

/-- If no Hessian is asked for, the residual is all that can stop the evaluation. -/
theorem closuresOutcome_eq_error (hrequest : request.hessian = false) {stop : Stop}
    (h : closuresOutcome residual rule? request x dual = .error stop) :
    ∃ v, residual n x = .error v ∧ stop = .violated v := by
  cases hy : residual n x with
  | ok y =>
    simp only [closuresOutcome, hy, hrequest, Bool.false_eq_true, if_false] at h
    cases h
  | error v =>
    rw [closuresOutcome, hy] at h
    exact ⟨v, rfl, (Except.error.inj h).symm⟩

/-- A Hessian is evaluated without a failure exactly if the closure is given and its value has the
right shape. -/
theorem hessianOutcome_eq_ok : hessianOutcome rule? x dual = .ok () ↔
    ∃ rule, rule? = some rule ∧ ∃ H, rule n x dual = .ok H ∧ H.rows = n ∧ H.columns = n := by
  unfold hessianOutcome
  cases rule? with
  | none => simp
  | some rule =>
    cases hH : rule n x dual with
    | error v => simp [hH]
    | ok H =>
      by_cases hshape : H.rows = n ∧ H.columns = n
      · simp [hH, hshape]
      · simp [hH, hshape]

/-! ## What an assembly obtains -/

/-- The residual that an assembly at a global state obtains. Nothing is evaluated for a Jacobian. -/
def obtainedResidual (residual : ResidualRule α) (request : Derivatives) (x : Vector α n) :
    Option (Vector α n) :=
  if request.wantsJacobian then none else (residual n x).toOption

/-- The Hessian that an assembly at a global state obtains: the value of the closure, if a Hessian
is asked for and the assembly is successful. -/
def obtainedHessian (residual : ResidualRule α) (rule? : Option (HessianRule α))
    (request : Derivatives) (x dual : Vector α n) : Option (SparseMatrix α) :=
  if request.hessian then
    (assemblyOutcome residual rule? request x dual).toOption.bind fun _ =>
      rule?.bind fun rule => (rule n x dual).toOption
  else none

/-- The state of a rank after an assembly at a global state. -/
def ClosureState.assembled {p : Partition n} (s : ClosureState α p) (residual : ResidualRule α)
    (rule? : Option (HessianRule α)) (request : Derivatives) (x dual : Vector α n) :
    ClosureState α p :=
  { s with
    rightHandSide := (obtainedResidual residual request x).elim s.rightHandSide (.ofVector p)
    hessian? := ((obtainedHessian residual rule? request x dual).bind fun H =>
      (ClosureSystem.ownRows p H).toOption).or s.hessian?
    assemblies := if request.wantsJacobian then s.assemblies else s.assemblies + 1 }

/-- A Hessian is obtained exactly by a successful assembly that asks for one. -/
theorem obtainedHessian_eq_some : obtainedHessian residual rule? request x dual = some H ↔
    request.hessian = true ∧ assemblyOutcome residual rule? request x dual = .ok () ∧
      ∃ rule, rule? = some rule ∧ rule n x dual = .ok H := by
  unfold obtainedHessian
  cases request.hessian with
  | false => simp
  | true =>
    cases assemblyOutcome residual rule? request x dual with
    | error stop => simp [Except.toOption]
    | ok _ =>
      cases rule? with
      | none => simp [Except.toOption]
      | some rule =>
        cases hH : rule n x dual <;> simp [Except.toOption, hH]

/-- A Hessian that is obtained has the right shape. -/
theorem shape_of_obtainedHessian (h : obtainedHessian residual rule? request x dual = some H) :
    H.rows = n ∧ H.columns = n := by
  obtain ⟨hrequest, houtcome, rule, hrule, hH⟩ := obtainedHessian_eq_some.1 h
  have hevaluated : hessianOutcome rule? x dual = .ok () := by
    simp only [assemblyOutcome, closuresOutcome, hrequest, if_true] at houtcome
    split at houtcome
    · cases houtcome
    · split at houtcome
      · cases houtcome
      · exact houtcome
  obtain ⟨rule', hrule', H', hH', hshape⟩ := hessianOutcome_eq_ok.1 hevaluated
  obtain rfl : rule' = rule := Option.some.inj (hrule'.symm.trans hrule)
  obtain rfl : H' = H := Except.ok.inj (hH'.symm.trans hH)
  exact hshape

/-- What an assembly that has obtained a Hessian stores of it. -/
theorem ClosureState.part_assembled {p : Partition n} (s : ClosureState α p) :
    (s.assembled residual rule? request x dual).hessian?.map RowMatrix.part =
      ((obtainedHessian residual rule? request x dual).map (·.restrict p.owns)).or
        (s.hessian?.map RowMatrix.part) := by
  unfold assembled
  cases hobtained : obtainedHessian residual rule? request x dual with
  | none => rfl
  | some H =>
    obtain ⟨A, hA, hpart⟩ := ClosureSystem.ownRows_ok p (shape_of_obtainedHessian hobtained)
    simp [hA, hpart, Except.toOption]

end Outcomes

namespace Group

open ClosureState Stateful

variable {α : Type} [Arithmetic α] {P : Interface} {n size : Nat} {p : Fin size → Partition n}
  {R : Replies P size} {residual : ResidualRule α} {rule? : Option (HessianRule α)}
  {S : (r : Fin size) → ClosureSystem α (p r)} {states : (r : Fin size) → ClosureState α (p r)}
  {dual : Vector α n}

/-! ## Assembling together -/

/-- The ranks evaluate the Hessian, each at a state of its own, with the dual that the owners
hold. -/
theorem attains_assembleHessian (hdivide : Partition.Divide p)
    (hrule : ∀ r, (S r).hessian? = rule?) (y : Fin size → Vector α n)
    (hdual : ownersVector (fun r => (states r).dual) = dual) :
    Attains R (fun out => out = fun r => (hessianOutcome rule? (y r) dual, { states r with
        hessian? := (((hessianOutcome rule? (y r) dual).toOption.bind fun _ =>
          rule?.bind fun rule => (rule n (y r) dual).toOption).bind fun H =>
            (ClosureSystem.ownRows (p r) H).toOption).or (states r).hessian? }))
      fun r => ((S r).assembleHessian (y r) : Stateful (ClosureState α (p r)) α P Unit).run
        (states r) := by
  unfold ClosureSystem.assembleHessian
  simp only [hrule]
  cases rule? with
  | none => exact .done _ rfl
  | some rule =>
    refine Proceeds.get.bind _ ?_
    rintro _ _ ⟨rfl, rfl⟩
    refine (Proceeds.lift (achieves_ownersVector hdivide _)).bind _ ?_
    rintro _ _ ⟨rfl, rfl⟩
    rw [hdual]
    -- From here on no rank meets another one.
    refine .of_eq_done (fun r => ?_) rfl
    cases hH : rule n (y r) dual with
    | error v => simp only [hessianOutcome, hH]; rfl
    | ok H =>
      by_cases hshape : H.rows = n ∧ H.columns = n
      · obtain ⟨A, hA, _⟩ := ClosureSystem.ownRows_ok (p r) hshape
        simp only [ClosureSystem.check, pure_bind, hA, hessianOutcome, hH, if_pos hshape]
        simp [hH, hA, Except.toOption]
        rfl
      · simp only [ClosureSystem.check, pure_bind, ClosureSystem.ownRows, hessianOutcome, hH,
          if_neg hshape]
        rfl

/-- Whether a residual that is needed for a Hessian comes out does not depend on the rank. -/
def AllOrNone (residual : ResidualRule α) (request : Derivatives) (y : Fin size → Vector α n) :
    Prop :=
  request.wantsJacobian = false → request.hessian = true →
    (∀ r, ∃ z, residual n (y r) = .ok z) ∨ ∀ r, ∃ v, residual n (y r) = .error v

omit [Arithmetic α] in
theorem AllOrNone.of_shared {request : Derivatives} (x : Vector α n) :
    AllOrNone residual request fun _ : Fin size => x := by
  intro _ _
  cases hz : residual n x with
  | ok z => exact .inl fun _ => ⟨z, hz⟩
  | error v => exact .inr fun _ => ⟨v, hz⟩

/-- The ranks evaluate the closures, each at a state of its own. -/
theorem attains_assembleAt (hdivide : Partition.Divide p)
    (hresidual : ∀ r, (S r).residual = residual) (hrule : ∀ r, (S r).hessian? = rule?)
    {request : Derivatives} (hrequest : request.wantsJacobian = false) (y : Fin size → Vector α n)
    (hdual : ownersVector (fun r => (states r).dual) = dual)
    (hsame : AllOrNone residual request y) :
    Attains R (fun out => out = fun r => (assemblyOutcome residual rule? request (y r) dual,
        { (states r).assembled residual rule? request (y r) dual with
          assemblies := (states r).assemblies }))
      fun r => ((S r).assembleAt request (y r) : Stateful (ClosureState α (p r)) α P Unit).run
        (states r) := by
  unfold ClosureSystem.assembleAt assembled obtainedResidual obtainedHessian assemblyOutcome
  simp only [hresidual, hrequest, Bool.false_eq_true, if_false]
  unfold AllOrNone at hsame
  cases hhessian : request.hessian with
  | false =>
    -- The ranks do not meet any more.
    refine .of_eq_done (fun r => ?_) rfl
    cases hz : residual n (y r) with
    | error v => simp only [closuresOutcome, hz]; rfl
    | ok z => simp only [closuresOutcome, hz, hhessian]; rfl
  | true =>
    simp only [if_true]
    obtain hall | hall := hsame hrequest hhessian
    · choose z hz using hall
      simp only [hz, ClosureSystem.check, pure_bind, closuresOutcome, hhessian, if_true]
      refine (Proceeds.modify _).bind _ ?_
      rintro _ _ rfl
      have hkept : ownersVector (fun r => ({ states r with
          rightHandSide := .ofVector (p r) (z r) } : ClosureState α (p r)).dual) = dual := hdual
      exact attains_assembleHessian hdivide hrule y hkept
    · choose v hv using hall
      refine .of_eq_done (fun r => ?_) rfl
      simp only [hv, closuresOutcome]
      rfl

/-- The ranks assemble together. Each evaluates the closures at its own view of the solution, with
the dual that the owners hold. -/
theorem attains_assemble (hdivide : Partition.Divide p)
    (hresidual : ∀ r, (S r).residual = residual) (hrule : ∀ r, (S r).hessian? = rule?)
    {request : Derivatives} {y : Fin size → Vector α n}
    (hview : view (fun r => (states r).solution) = y)
    (hdual : ownersVector (fun r => (states r).dual) = dual)
    (hsame : AllOrNone residual request y) :
    Attains R (fun out => out = fun r => (assemblyOutcome residual rule? request (y r) dual,
        (states r).assembled residual rule? request (y r) dual))
      fun r => ((S r).assemble request : Stateful (ClosureState α (p r)) α P Unit).run
        (states r) := by
  cases hrequest : request.wantsJacobian with
  | true =>
    unfold ClosureSystem.assemble assembled obtainedResidual obtainedHessian assemblyOutcome
    simp only [hrequest, if_true]
    refine .of_eq_done (fun r => ?_) rfl
    cases request.hessian <;> rfl
  | false =>
    unfold ClosureSystem.assemble
    simp only [hrequest, Bool.false_eq_true, if_false]
    refine (Proceeds.modify _).bind _ ?_
    rintro _ _ rfl
    refine (proceeds_view hdivide _).bind _ ?_
    rintro _ _ ⟨rfl, rfl⟩
    rw [hview]
    have hkept : ownersVector (fun r => ({ states r with
        assemblies := (states r).assemblies + 1 } : ClosureState α (p r)).dual) = dual := hdual
    refine Attains.mono (attains_assembleAt hdivide hresidual hrule hrequest y hkept hsame) ?_
    rintro _ rfl
    simp only [assembled, hrequest, Bool.false_eq_true, if_false]

end Group

end DualHessian
