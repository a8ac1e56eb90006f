import DualHessian.Proofs.Sparse.Compressed
import DualHessian.Proofs.System.Perturbation

/-!
# Systems of a group

The ranks of a group hold the parts of one system that is given by closures. If they agree on the
solution and on the dual, they all evaluate the closures at the same global state.

* `ClosureState.Share` is this agreement. Perturbing, sampling and assembling keep it.
* `Group.proceeds_assembleResidual`, `Group.proceeds_assembleHessian` and `Group.proceeds_sample`
  say what the group obtains by an assembly and by a sample.
* `Description.build_ok` says that the systems built from one description agree from the start.
-/

namespace DualHessian

/-- All ranks hold their parts of one solution and of one dual. -/
structure ClosureState.Share {α : Type} {n size : Nat} {p : Fin size → Partition n}
    (x dual : Vector α n) (states : (r : Fin size) → ClosureState α (p r)) : Prop where
  /-- The solution is the given one. -/
  solution : ∀ r, (states r).solution = .ofVector (p r) x
  /-- The dual is the given one. -/
  dual : ∀ r, (states r).dual = .ofVector (p r) dual

/-- The state of a rank before anything is assembled. -/
def ClosureState.initial {α : Type} [Zero α] {n : Nat} (p : Partition n) (x dual : Vector α n) :
    ClosureState α p :=
  ⟨.ofVector p x, .ofVector p dual, .zeros p, none, 0⟩

theorem ClosureState.share_initial {α : Type} [Zero α] {n size : Nat} (p : Fin size → Partition n)
    (x dual : Vector α n) : Share x dual fun r => initial (p r) x dual :=
  ⟨fun _ => rfl, fun _ => rfl⟩

/-- Offsets that all ranks add are added to what they share. -/
theorem ClosureState.Share.perturb {α : Type} [Add α] {n size : Nat} {p : Fin size → Partition n}
    {x dual : Vector α n} {states : (r : Fin size) → ClosureState α (p r)}
    (h : Share x dual states) (perturbations : List (Perturbation α)) :
    Share (shift x perturbations) dual fun r =>
      { states r with solution := (states r).solution.perturb perturbations } := by
  refine ⟨fun r => ?_, h.dual⟩
  rw [h.solution r, LocalVector.perturb_ofVector]

theorem ClosureSystem.ownRows_ok {α : Type} {n : Nat} (p : Partition n) {H : SparseMatrix α}
    (hshape : H.rows = n ∧ H.columns = n) :
    ∃ A, ownRows p H = .ok A ∧ A.part = H.restrict p.owns := by
  unfold ownRows RowMatrix.ofGlobal
  rw [if_pos hshape, dif_pos hshape.1]
  exact ⟨_, rfl, rfl⟩

namespace Group

open ClosureState

variable {α : Type} [Arithmetic α] {P : Interface} {n size : Nat} {p : Fin size → Partition n}
  {R : Replies P size}

/-! ## Perturbing -/

/-- A computation at a perturbed solution, on all ranks. The perturbed entries get their former
values back, however it ends. -/
theorem attains_withPerturbation {β σ : Fin size → Type}
    (D : (r : Fin size) → Discretization (σ r) α P (p r)) (perturbations : List (Perturbation α))
    {actions : (r : Fin size) → Stateful (σ r) α P (β r)} {states : (r : Fin size) → σ r}
    {post final : ((r : Fin size) → Except Stop (β r) × σ r) → Prop}
    (h : Attains R post fun r =>
      (actions r).run ((D r).changeSolution (·.perturb perturbations) (states r)))
    (himp : ∀ out, post out → final fun r => ((out r).1, (D r).changeSolution
      (·.setAll (((D r).solution (states r)).perturbedEntries perturbations).reverse) (out r).2)) :
    Attains R final fun r =>
      ((D r).withPerturbation perturbations (actions r)).run (states r) :=
  Attains.map h (fun r out => (out.1, (D r).changeSolution
    (·.setAll (((D r).solution (states r)).perturbedEntries perturbations).reverse) out.2)) himp

/-! ## Assembling -/

variable {x dual : Vector α n} {states : (r : Fin size) → ClosureState α (p r)}

/-- Every rank obtains its view of the solution. -/
theorem proceeds_view (hdivide : Partition.Divide p)
    (states : (r : Fin size) → ClosureState α (p r)) :
    Proceeds R states (fun b s => b = view (fun r => (states r).solution) ∧ s = states) fun r =>
      (ClosureSystem.globalState : Stateful (ClosureState α (p r)) α P (Vector α n)) := by
  unfold ClosureSystem.globalState
  refine Proceeds.get.andThen _ ?_
  rintro _ _ ⟨rfl, rfl⟩
  refine (Proceeds.lift (achieves_ownersVector hdivide _)).andThen _ ?_
  rintro _ _ ⟨rfl, rfl⟩
  exact .pure ⟨rfl, rfl⟩

theorem proceeds_globalState (hdivide : Partition.Divide p) (h : Share x dual states) :
    Proceeds R states (fun b s => b = (fun _ => x) ∧ s = states) fun r =>
      (ClosureSystem.globalState : Stateful (ClosureState α (p r)) α P (Vector α n)) := by
  refine (proceeds_view hdivide states).mono ?_
  rintro _ _ ⟨rfl, rfl⟩
  refine ⟨?_, rfl⟩
  simp only [h.solution]
  exact view_ofVector hdivide x

/-- An assembly on all ranks replaces the right-hand side by the residual at the solution, and goes
on with the Hessian if it is asked for. -/
theorem proceeds_assemble (S : (r : Fin size) → ClosureSystem α (p r)) {request : Derivatives}
    (hrequest : request.wantsJacobian = false) (hdivide : Partition.Divide p)
    (h : Share x dual states) {y : Fin size → Vector α n}
    (hresidual : ∀ r, (S r).residual n x = .ok (y r))
    {post : ((r : Fin size) → Unit) → ((r : Fin size) → ClosureState α (p r)) → Prop}
    (hrest : ∀ s, Share x dual s → (∀ r, (s r).rightHandSide = .ofVector (p r) (y r)) →
      Proceeds R s post fun r => if request.hessian then (S r).assembleHessian x else pure ()) :
    Proceeds R states post fun r =>
      ((S r).assemble request : Stateful (ClosureState α (p r)) α P Unit) := by
  unfold ClosureSystem.assemble
  simp only [hrequest, Bool.false_eq_true, if_false]
  refine (Proceeds.modify _).andThen _ ?_
  rintro _ _ rfl
  -- Counting an assembly changes neither solution nor dual.
  have hcounted : Share x dual fun r => { states r with assemblies := (states r).assemblies + 1 } :=
    ⟨h.solution, h.dual⟩
  refine (proceeds_globalState hdivide hcounted).andThen _ ?_
  rintro _ _ ⟨rfl, rfl⟩
  simp only [hresidual, ClosureSystem.check, pure_bind]
  refine (Proceeds.modify _).andThen _ ?_
  rintro _ _ rfl
  exact hrest _ ⟨h.solution, h.dual⟩ fun _ => rfl

/-- An assembly of the residual alone keeps what the ranks share. -/
theorem proceeds_assembleResidual (S : (r : Fin size) → ClosureSystem α (p r))
    (hdivide : Partition.Divide p) (h : Share x dual states) {y : Fin size → Vector α n}
    (hresidual : ∀ r, (S r).residual n x = .ok (y r)) :
    Proceeds R states
      (fun _ s => Share x dual s ∧ ∀ r, (s r).rightHandSide = .ofVector (p r) (y r))
      fun r => ((S r).assemble .residualOnly : Stateful (ClosureState α (p r)) α P Unit) :=
  proceeds_assemble S rfl hdivide h hresidual fun _ hs hright => .pure ⟨hs, hright⟩

/-- An assembly with the Hessian keeps what the ranks share, and every rank then shows its rows of
the Hessian at the solution. -/
theorem proceeds_assembleHessian (S : (r : Fin size) → ClosureSystem α (p r))
    (hdivide : Partition.Divide p) (h : Share x dual states) {y : Fin size → Vector α n}
    (hresidual : ∀ r, (S r).residual n x = .ok (y r)) {rule : HessianRule α}
    (hrule : ∀ r, (S r).hessian? = some rule) {H : SparseMatrix α} (hH : rule n x dual = .ok H)
    (hshape : H.rows = n ∧ H.columns = n) :
    Proceeds R states
      (fun _ s => Share x dual s ∧
        ∀ r, ∃ A, (s r).hessian? = some A ∧ A.part = H.restrict (p r).owns)
      fun r => ((S r).assemble .withHessian : Stateful (ClosureState α (p r)) α P Unit) := by
  refine proceeds_assemble S rfl hdivide h hresidual fun s hs _ => ?_
  have howned : ∀ r, EntriesOf dual (s r).dual.ownedEntries := by
    intro r
    rw [hs.dual r]
    exact LocalVector.entriesOf_ownedEntries (p r) dual
  choose A hA hpart using fun r => ClosureSystem.ownRows_ok (p r) hshape
  unfold ClosureSystem.assembleHessian
  simp only [Derivatives.withHessian, if_true, hrule]
  refine Proceeds.get.andThen _ ?_
  rintro _ _ ⟨rfl, rfl⟩
  refine (Proceeds.lift (achieves_global hdivide howned)).andThen _ ?_
  rintro _ _ ⟨rfl, rfl⟩
  simp only [hH, ClosureSystem.check, pure_bind, hA]
  refine (Proceeds.modify _).mono ?_
  rintro _ _ rfl
  exact ⟨⟨hs.solution, hs.dual⟩, fun r => ⟨A r, rfl, hpart r⟩⟩

/-! ## Sampling -/

/-- All ranks obtain the inner product of dual and residual at the perturbed solution, and share
what they shared before. -/
theorem proceeds_sample (S : (r : Fin size) → ClosureSystem α (p r)) (hdivide : Partition.Divide p)
    (h : Share x dual states) (perturbations : List (Perturbation α))
    {y : Fin size → Vector α n}
    (hresidual : ∀ r, (S r).residual n (shift x perturbations) = .ok (y r)) :
    Proceeds R states (fun b s => b = (fun _ => product p y dual) ∧ Share x dual s) fun r =>
      ((S r).discretization : Discretization (ClosureState α (p r)) α P (p r)).sample
        perturbations := by
  have hperturbed : Share (shift x perturbations) dual fun r =>
      ((S r).discretization (P := P)).changeSolution (·.perturb perturbations) (states r) :=
    h.perturb perturbations
  -- At the perturbed solution the ranks assemble the residual and multiply it with the dual.
  have hinside : Proceeds R
      (fun r => ((S r).discretization (P := P)).changeSolution (·.perturb perturbations) (states r))
      (fun b s => b = (fun _ => product p y dual) ∧ Share (shift x perturbations) dual s)
      fun r => (do
        (S r).assemble .residualOnly
        let s ← get
        (s.rightHandSide.dot s.dual : Task α P α)) := by
    refine (proceeds_assembleResidual S hdivide hperturbed hresidual).andThen _ ?_
    rintro _ s ⟨hs, hright⟩
    refine Proceeds.get.andThen _ ?_
    rintro _ _ ⟨rfl, rfl⟩
    refine (Proceeds.lift (achieves_dot _ _)).mono ?_
    rintro _ _ ⟨rfl, rfl⟩
    simp only [hright, hs.dual]
    exact ⟨rfl, hs⟩
  -- The saved entries bring back the solution that the ranks shared before.
  refine attains_withPerturbation _ perturbations hinside ?_
  rintro _ ⟨_, s, ⟨rfl, hs⟩, rfl⟩
  refine ⟨_, _, ?_, rfl⟩
  refine ⟨rfl, fun r => ?_, hs.dual⟩
  show (s r).solution.setAll ((states r).solution.perturbedEntries perturbations).reverse = _
  rw [hs.solution r, h.solution r, ← LocalVector.perturb_ofVector, LocalVector.setAll_perturb]

end Group

/-! ## Building -/

namespace Description

variable {α : Type} [Arithmetic α] {size : Nat} {residual : ResidualRule α} {pattern : Pattern}
  {x dual : Vector α pattern.rows}

/-- The part of a rank. It owns the block of the rank, and every column that the pattern couples to
an owned row is relevant to it. -/
theorem build_of_place (c : Place) (d : Description α) (hresidual : d.residual? = some residual)
    (hpattern : d.pattern? = some pattern) (hsquare : pattern.columns = pattern.rows)
    (hx : vectorOr pattern.rows d.solution? = x.toList)
    (hdual : vectorOr pattern.rows d.dual? = dual.toList) :
    ∃ p : Partition pattern.rows,
      (∀ i, i ∈ p.owned ↔ Partition.blockStart pattern.rows c.size c.rank ≤ i ∧
        i < Partition.blockStart pattern.rows c.size (c.rank + 1)) ∧
      (∀ i ∈ p.owned, ∀ j ∈ pattern.lane i, j ∈ p.relevant) ∧ d.build c = .ok {
        dofs := pattern.rows
        partition := p
        system := ⟨c, pattern.restrict p.owns, residual, d.hessian?⟩
        state := .initial p x dual } := by
  obtain ⟨block, hblock, howned⟩ := Partition.contiguous_ok (n := pattern.rows) c.rank_lt_size
  obtain ⟨p, hp, hsame, hrelevant⟩ := Partition.withGhosts_ok block rfl hsquare
  refine ⟨p, fun i => ?_, fun i hi j hj => ?_, ?_⟩
  · rw [hsame]
    exact howned i
  · exact (hrelevant j).2 (.inr ⟨i, hsame ▸ hi, hj⟩)
  · have hok : ∀ {β γ : Type} (b : β) (f : β → Except Stop γ), Except.ok b >>= f = f b :=
      fun _ _ => rfl
    unfold build
    -- Every part is given and every check holds, so the steps follow each other.
    simp only [hresidual, hpattern, require, hok]
    rw [hx, hdual]
    simp only [hsquare, Vector.length_toList, beq_self_eq_true, ensure, if_true, hok, hblock, hp,
      checked, reported, ownedRows_eq, Except.mapError, LocalVector.ofList_toList]
    rfl

/-- The systems built from one description share its solution and its dual, and their partitions
divide the degrees of freedom. -/
theorem build_ok (hsize : 0 < size) {c : Fin size → Place}
    (hc : ∀ r, (c r).rank = r ∧ (c r).size = size) (d : Description α)
    (hresidual : d.residual? = some residual) (hpattern : d.pattern? = some pattern)
    (hsquare : pattern.columns = pattern.rows)
    (hx : vectorOr pattern.rows d.solution? = x.toList)
    (hdual : vectorOr pattern.rows d.dual? = dual.toList) :
    ∃ p : Fin size → Partition pattern.rows, Partition.Divide p ∧ ∀ r, d.build (c r) = .ok {
      dofs := pattern.rows
      partition := p r
      system := ⟨c r, pattern.restrict (p r).owns, residual, d.hessian?⟩
      state := .initial (p r) x dual } := by
  choose p howned _ hbuild using fun r =>
    build_of_place (c r) d hresidual hpattern hsquare hx hdual
  refine ⟨p, Partition.divide_of_blocks hsize fun r i => ?_, hbuild⟩
  rw [howned r i, (hc r).1, (hc r).2]

end Description

end DualHessian
