import DualHessian.Proofs.Distributed.Accumulation
import DualHessian.Proofs.Distributed.Addition
import DualHessian.Proofs.Distributed.Faithful
import DualHessian.Proofs.Numbers.Binary64

/-!
# Working with distributed matrices

The ranks of a group make matrices, keep them under names and add multiples of them to each other,
in any order. Whatever they have done, the parts that they hold under a name stand for one dense
matrix.

* `MatrixOperation` is what the ranks can do, `MatrixOperation.perform` how a rank does it.
* `Workspace.Aligned` says that the ranks hold parts of the same matrices. One operation keeps it
  (`MatrixOperation.proceeds_perform`), and so do many (`MatrixOperation.proceeds_performAll`).
* `MatrixOperation.performAll_faithful` is what the ranks have after any operations.
-/

namespace DualHessian

open Magnitude

/-! ## Operations -/

/-- A division of degrees of freedom among the ranks of a group. -/
structure Layout (size : Nat) where
  /-- The number of degrees of freedom. -/
  count : Nat
  /-- What each rank knows about them. -/
  partition : Fin size → Partition count
  /-- Each has one owner. -/
  divide : Partition.Divide partition

/-- A matrix as one rank holds it. -/
structure HeldMatrix (α : Type) where
  /-- The number of rows of the global matrix. -/
  rows : Nat
  /-- The partition by which rows belong to ranks. -/
  partition : Partition rows
  /-- The rows of this rank. -/
  matrix : RowMatrix α partition

/-- The matrices that one rank holds, by their names. -/
abbrev Workspace (α : Type) := String → Option (HeldMatrix α)

/-- Something that all ranks of a group do with their matrices. -/
inductive MatrixOperation (α : Type) (size : Nat) where
  /-- To make a matrix in which nothing is stored. -/
  | zeros (target : String) (L : Layout size) (columns : Nat)
  /-- To keep the own rows of a matrix that every rank knows in full. -/
  | ofGlobal (target : String) (L : Layout size) (A : SparseMatrix α)
  /-- To make a matrix of what the ranks have deposited for it. -/
  | collect (target : String) (L : Layout size) (columns : Nat)
      (deposits : (r : Fin size) → Deposits α (L.partition r))
      (agree : ∀ r, (deposits r).columns = columns)
  /-- To add a multiple of a matrix to another one. -/
  | addMultiple (target : String) (factor : α) (source : String)

namespace Workspace

variable {α : Type}

/-- Nothing is held. -/
def empty : Workspace α := fun _ => none

/-- Holds a matrix under a name, if there is one. -/
def store (held : Workspace α) (target : String) (result : Except MatrixConflict (HeldMatrix α)) :
    Workspace α :=
  match result with
  | .ok A => Function.update held target (some A)
  | .error _ => held

theorem store_self (held : Workspace α) (target : String) (A : HeldMatrix α) :
    held.store target (.ok A) target = some A :=
  Function.update_self ..

theorem store_of_ne (held : Workspace α) {target : String}
    (result : Except MatrixConflict (HeldMatrix α)) {name : String} (h : name ≠ target) :
    held.store target result name = held name := by
  cases result with
  | ok A => exact Function.update_of_ne h ..
  | error _ => rfl

/-- Under every name the ranks hold the parts of one matrix, or nothing. -/
def Aligned {size : Nat} (held : Fin size → Workspace α) : Prop :=
  ∀ name, (∀ r, held r name = none) ∨
    ∃ (L : Layout size) (columns : Nat) (M : GroupMatrix α L.partition),
      (∀ r, held r name = some ⟨L.count, L.partition r, M r⟩) ∧ ∀ r, (M r).columns = columns

variable {size : Nat} {held after : Fin size → Workspace α}

/-- Only one matrix is replaced. -/
theorem Aligned.replace (h : Aligned held) {target : String} {L : Layout size} {columns : Nat}
    {M : GroupMatrix α L.partition} (hcolumns : ∀ r, (M r).columns = columns)
    (htarget : ∀ r, after r target = some ⟨L.count, L.partition r, M r⟩)
    (hothers : ∀ r name, name ≠ target → after r name = held r name) : Aligned after := by
  intro name
  by_cases hname : name = target
  · exact .inr ⟨L, columns, M, fun r => hname ▸ htarget r, hcolumns⟩
  · simp only [hothers _ name hname]
    exact h name

theorem Aligned.store_ok (h : Aligned held) (target : String) {L : Layout size} {columns : Nat}
    {M : GroupMatrix α L.partition} (hcolumns : ∀ r, (M r).columns = columns) :
    Aligned fun r => (held r).store target (.ok ⟨L.count, L.partition r, M r⟩) :=
  h.replace hcolumns (fun _ => store_self ..) fun _ _ hname => store_of_ne _ _ hname

end Workspace

namespace MatrixOperation

variable {α : Type} {P : Interface} {size : Nat}

/-- Holds a matrix under a name, if there is one, and says whether there is. -/
def keep (target : String) (result : Except MatrixConflict (HeldMatrix α)) :
    Stateful (Workspace α) α P (Option (Except MatrixConflict Unit)) := do
  modify (·.store target result)
  return some (result.map fun _ => ())

/-- What one rank does for an operation. It returns nothing if there is no matrix under a name, and
otherwise whether there was a conflict. -/
def perform [Add α] [Mul α] (r : Fin size) :
    MatrixOperation α size → Stateful (Workspace α) α P (Option (Except MatrixConflict Unit))
  | .zeros target L columns => keep target (.ok ⟨L.count, L.partition r, .zeros _ columns⟩)
  | .ofGlobal target L A =>
    keep target ((RowMatrix.ofGlobal (L.partition r) A).map (⟨L.count, L.partition r, ·⟩))
  | .collect target L _ deposits _ => do
    let M ← ((deposits r).toMatrix : Task α P (RowMatrix α (L.partition r)))
    keep target (.ok ⟨L.count, L.partition r, M⟩)
  | .addMultiple target factor source => do
    let held ← get
    match held target, held source with
    | some A, some B =>
      keep target ((A.matrix.addMultiple factor B.matrix).map (⟨A.rows, A.partition, ·⟩))
    | _, _ => return none

/-- What one rank does for operations one after the other. -/
def performAll [Add α] [Mul α] (r : Fin size) (operations : List (MatrixOperation α size)) :
    Stateful (Workspace α) α P (List (Option (Except MatrixConflict Unit))) :=
  operations.mapM (perform r)

open Workspace
open DualHessian.Group (Proceeds)

variable {R : Replies P size} {held : Fin size → Workspace α}

theorem proceeds_keep (target : String)
    (results : Fin size → Except MatrixConflict (HeldMatrix α)) :
    Proceeds R held (fun _ after => after = fun r => (held r).store target (results r)) fun r =>
      keep target (results r) :=
  .done _ ⟨_, _, rfl, rfl⟩

section Steps

variable [Add α] [Mul α]

/-- All ranks come to the end of an operation, and hold parts of the same matrices again. -/
theorem proceeds_perform (operation : MatrixOperation α size) (h : Aligned held) :
    Proceeds R held (fun _ after => Aligned after) fun r => operation.perform r := by
  cases operation with
  | zeros target L columns =>
    refine (proceeds_keep target _).mono ?_
    rintro _ _ rfl
    exact h.store_ok target fun _ => rfl
  | ofGlobal target L A =>
    refine (proceeds_keep target _).mono ?_
    rintro _ _ rfl
    -- All ranks see the same number of rows, so they agree on whether there is a conflict.
    by_cases hrows : A.rows = L.count
    · obtain ⟨M, hM⟩ := GroupMatrix.exists_ofGlobal L.partition hrows
      simp only [fun r => (hM r).1]
      exact h.store_ok target fun r => RowMatrix.columns_of_restrict (hM r).2
    · simp only [RowMatrix.ofGlobal, dif_neg hrows]
      exact h
  | collect target L columns deposits agree =>
    -- This is the only operation in which the ranks meet.
    refine (Proceeds.lift (Deposits.achieves_toMatrix deposits agree)).andThen _ ?_
    rintro _ _ ⟨rfl, rfl⟩
    refine (proceeds_keep target _).mono ?_
    rintro _ _ rfl
    exact h.store_ok target fun _ => rfl
  | addMultiple target factor source =>
    refine Proceeds.get.andThen _ ?_
    rintro _ held ⟨rfl, rfl⟩
    -- The ranks agree on which names stand for a matrix, but they need not agree on a conflict: two
    -- layouts may be the same on one rank and different on another one.
    rcases h target with hnone | ⟨L, columns, M, htarget, hcolumns⟩
    · simp only [hnone]
      exact .pure h
    rcases h source with hnone | ⟨L', columns', N, hsource, -⟩
    · simp only [htarget, hnone]
      exact .pure h
    simp only [htarget, hsource]
    refine (proceeds_keep target _).mono ?_
    rintro _ _ rfl
    -- A rank on which there is a conflict keeps its part, with the same number of columns.
    have hpart : ∀ r, ∃ S : RowMatrix α (L.partition r), S.columns = columns ∧
        (held r).store target (((M r).addMultiple factor (N r)).map (⟨_, L.partition r, ·⟩))
          target = some ⟨L.count, L.partition r, S⟩ := by
      intro r
      rcases (M r).addMultiple_cases factor (N r) with
        ⟨-, heq⟩ | ⟨-, -, heq⟩ | ⟨-, -, S, heq, hS, -⟩
      · exact ⟨M r, hcolumns r, heq ▸ htarget r⟩
      · exact ⟨M r, hcolumns r, heq ▸ htarget r⟩
      · exact ⟨S, hS.trans (hcolumns r), heq ▸ store_self ..⟩
    choose S hScolumns hS using hpart
    exact h.replace hScolumns hS fun r name hname => store_of_ne _ _ hname

/-- After any number of operations the ranks hold parts of the same matrices. -/
theorem proceeds_performAll (operations : List (MatrixOperation α size)) (h : Aligned held) :
    Proceeds R held (fun _ after => Aligned after) fun r => performAll r operations := by
  unfold performAll
  induction operations generalizing held with
  | nil =>
    simp only [List.mapM_nil]
    exact .pure h
  | cons operation operations ih =>
    simp only [List.mapM_cons]
    refine (proceeds_perform operation h).andThen _ fun _ after hafter => ?_
    refine (ih hafter).andThen _ fun _ last hlast => ?_
    exact .pure hlast

/-! ## Adding multiples -/

/-- What becomes of the matrices of one rank if it adds a multiple of the matrix `B` to the matrix
`A` that it holds under the name `target`. -/
structure Adds (held : Workspace α) (target : String) (A : HeldMatrix α) (factor : α)
    (B : HeldMatrix α) (outcome : Except MatrixConflict Unit) (after : Workspace α) : Prop where
  /-- Different shapes are reported. -/
  shape_iff : outcome = .error (.shape A.matrix.shape B.matrix.shape) ↔
    A.matrix.shape ≠ B.matrix.shape
  /-- For matrices of one shape, different partitions are reported. -/
  partition_iff : outcome = .error .partition ↔ A.matrix.shape = B.matrix.shape ∧
    (⟨A.rows, A.partition⟩ : Σ n, Partition n) ≠ ⟨B.rows, B.partition⟩
  /-- There is no other conflict. -/
  ok_iff : outcome = .ok () ↔ A.matrix.shape = B.matrix.shape ∧
    (⟨A.rows, A.partition⟩ : Σ n, Partition n) = ⟨B.rows, B.partition⟩
  /-- After a conflict all matrices are as they were. -/
  unchanged : outcome ≠ .ok () → after = held
  /-- Otherwise all other matrices are. -/
  others : ∀ name, name ≠ target → after name = held name
  /-- The sum stores what either matrix stores. -/
  sum : outcome = .ok () → ∃ S : RowMatrix α A.partition,
    after target = some ⟨A.rows, A.partition, S⟩ ∧ S.columns = A.matrix.columns ∧
      ∀ i j, S.part.stored? i j =
        sum? factor (A.matrix.part.stored? i j) (B.matrix.part.stored? i j)

theorem exists_adds (r : Fin size) {held : Workspace α} {target source : String}
    {A B : HeldMatrix α} (hA : held target = some A) (hB : held source = some B) (factor : α) :
    ∃ outcome after, ((addMultiple target factor source).perform r : Stateful _ α P _).run held =
      .done (.ok (some outcome), after) ∧ Adds held target A factor B outcome after := by
  have hrun : ((addMultiple target factor source).perform r : Stateful _ α P _).run held =
      let result := (A.matrix.addMultiple factor B.matrix).map (⟨A.rows, A.partition, ·⟩)
      .done (.ok (some (result.map fun _ => ())), held.store target result) := by
    show ExceptT.run (match held target, held source with
      | some A, some B =>
        keep target ((A.matrix.addMultiple factor B.matrix).map (⟨A.rows, A.partition, ·⟩))
      | _, _ => return none) held = _
    rw [hA, hB]
    rfl
  refine ⟨_, _, hrun, ?_⟩
  have hothers := fun name (hname : name ≠ target) => held.store_of_ne
    ((A.matrix.addMultiple factor B.matrix).map (⟨A.rows, A.partition, ·⟩)) hname
  -- The three cases exclude each other, so each outcome belongs to one of them only.
  rcases A.matrix.addMultiple_cases factor B.matrix with
    ⟨hshape, heq⟩ | ⟨hshape, hpartition, heq⟩ | ⟨hshape, hpartition, S, heq, hS⟩
  · rw [heq] at hothers ⊢
    exact ⟨iff_of_true rfl hshape, iff_of_false nofun fun h => hshape h.1,
      iff_of_false nofun fun h => hshape h.1, fun _ => rfl, hothers, nofun⟩
  · rw [heq] at hothers ⊢
    exact ⟨iff_of_false nofun fun h => h hshape, iff_of_true rfl ⟨hshape, hpartition⟩,
      iff_of_false nofun fun h => hpartition h.2, fun _ => rfl, hothers, nofun⟩
  · rw [heq] at hothers ⊢
    exact ⟨iff_of_false nofun fun h => h hshape, iff_of_false nofun fun h => h.2 hpartition,
      iff_of_true rfl ⟨hshape, hpartition⟩, fun h => absurd rfl h, hothers,
      fun _ => ⟨S, store_self .., hS⟩⟩

end Steps

/-! ## All operations -/

/-- Whatever the ranks of a group do with their matrices, they come to the end of it. What they hold
under a name then stands for one dense matrix. If they go on with the own rows of a matrix that
every rank knows in full, its dense form is gathered from them. If they go on with adding a multiple
of a matrix to another one, this succeeds exactly if shapes and partitions are the same; the sum
stores what either matrix stores, and nothing else changes. Numbers may be rounded, but a number
must not change when it is added onto zero. -/
theorem performAll_faithful [Arithmetic α] [Magnitude α] (hzero : ∀ x : α, SameNumber (0 + x) x)
    (operations : List (MatrixOperation α size)) :
    ∃ (outcomes : Fin size → List (Option (Except MatrixConflict Unit)))
      (held : Fin size → Workspace α),
      Group.Returns
        (fun r => (performAll r operations : Stateful (Workspace α) α .closed _).run .empty)
        (fun r => (.ok (outcomes r), held r)) ∧
      (∀ name, (∀ r, held r name = none) ∨
        ∃ (L : Layout size) (columns : Nat) (M : GroupMatrix α L.partition),
          (∀ r, held r name = some ⟨L.count, L.partition r, M r⟩) ∧ M.Faithful columns) ∧
      (∀ target (L : Layout size) (A : SparseMatrix α), A.rows = L.count →
        ∃ M : GroupMatrix α L.partition,
          (∀ r, ((ofGlobal target L A).perform r : Stateful _ α .closed _).run (held r) =
            .done (.ok (some (.ok ())),
              (held r).store target (.ok ⟨L.count, L.partition r, M r⟩))) ∧
          M.Faithful A.columns ∧
          Group.Returns (fun r => ((M r).dense : Task α .closed (Dense α)).run)
            (fun _ => .ok (.ofEntries A.rows A.columns A.entries))) ∧
      ∀ r target source A B, held r target = some A → held r source = some B → ∀ factor : α,
        ∃ outcome after,
          ((addMultiple target factor source).perform r : Stateful _ α .closed _).run (held r) =
            .done (.ok (some outcome), after) ∧
          Adds (held r) target A factor B outcome after := by
  have hempty : Aligned fun _ : Fin size => (.empty : Workspace α) := fun _ => .inl fun _ => rfl
  obtain ⟨_, ⟨outcomes, held, haligned, rfl⟩, hreturns⟩ :=
    (proceeds_performAll (R := .closed size) operations hempty).returns
  refine ⟨outcomes, held, hreturns, fun name => ?_, fun target L A hrows => ?_,
    fun r target source A B hA hB factor => exists_adds r hA hB factor⟩
  -- What is held under a name has been aligned by all operations before.
  · refine (haligned name).imp_right ?_
    rintro ⟨L, columns, M, hM, hcolumns⟩
    exact ⟨L, columns, M, hM, M.faithful hzero L.divide hcolumns⟩
  · obtain ⟨M, hM⟩ := GroupMatrix.exists_ofGlobal L.partition hrows
    refine ⟨M, fun r => ?_, ?_, GroupMatrix.dense_ofGlobal L.divide hrows fun r => (hM r).2⟩
    · simp only [perform, (hM r).1]
      rfl
    · exact M.faithful hzero L.divide fun r => RowMatrix.columns_of_restrict (hM r).2

/-- Two ranks, with one row each, that hold two matrices of doubles. -/
def twoMatrices : List (MatrixOperation Float 2) :=
  let L : Layout 2 := ⟨2, Partition.mirrored, Partition.divide_mirrored⟩
  [.ofGlobal "a" L (.ofEntries 2 2 [⟨0, 0, 1.5⟩, ⟨1, 1, -0⟩]),
    .ofGlobal "b" L (.ofEntries 2 2 [⟨0, 0, 0.25⟩, ⟨0, 1, 4⟩])]

/-- Doubles are rounded, and adding a negative zero onto zero changes its sign, but not the number.
The first rank adds where both matrices store something and takes over what one of them stores. -/
theorem performAll_faithful_two_ranks :
    ∃ held : Fin 2 → Workspace Float,
      Group.Returns
        (fun r =>
          (performAll r twoMatrices : Stateful (Workspace Float) Float .closed _).run .empty)
        (fun r => (.ok [some (.ok ()), some (.ok ())], held r)) ∧
      (∃ (L : Layout 2) (columns : Nat) (M : GroupMatrix Float L.partition),
        (∀ r, held r "a" = some ⟨L.count, L.partition r, M r⟩) ∧ M.Faithful columns) ∧
      ∃ (after : Workspace Float) (S : RowMatrix Float (Partition.mirrored 0)),
        ((addMultiple "a" 2 "b" : MatrixOperation Float 2).perform 0 :
            Stateful _ Float .closed _).run (held 0) = .done (.ok (some (.ok ())), after) ∧
        after "a" = some ⟨2, Partition.mirrored 0, S⟩ ∧ after "b" = held 0 "b" ∧
        S.part.stored? 0 0 = some (1.5 + 2 * 0.25) ∧ S.part.stored? 0 1 = some (2 * 4) ∧
        S.part.stored? 1 1 = none := by
  obtain ⟨outcomes, held, hreturns, hfaithful, -, hadds⟩ :=
    performAll_faithful Binary64.sameNumber_zero_add twoMatrices
  obtain ⟨M, hM⟩ := GroupMatrix.exists_ofGlobal Partition.mirrored
    (SparseMatrix.rows_ofEntries 2 2 [⟨0, 0, (1.5 : Float)⟩, ⟨1, 1, -0⟩])
  obtain ⟨N, hN⟩ := GroupMatrix.exists_ofGlobal Partition.mirrored
    (SparseMatrix.rows_ofEntries 2 2 [⟨0, 0, (0.25 : Float)⟩, ⟨0, 1, 4⟩])
  -- Both matrices are made without the other rank.
  let made (r : Fin 2) : Workspace Float :=
    (Workspace.empty.store "a" (.ok ⟨2, Partition.mirrored r, M r⟩)).store "b"
      (.ok ⟨2, Partition.mirrored r, N r⟩)
  have hrun : ∀ r, (performAll r twoMatrices : Stateful (Workspace Float) Float .closed _).run
      .empty = .done (.ok [some (.ok ()), some (.ok ())], made r) := by
    intro r
    simp only [performAll, twoMatrices, List.mapM_cons, List.mapM_nil, perform, (hM r).1, (hN r).1]
    rfl
  have hends := hreturns.unique (by
    simp only [hrun]
    exact Group.returns_done _)
  obtain rfl : held = made := funext fun r => (Prod.mk.inj (congrFun hends r)).2
  have ha : ∀ r, made r "a" = some ⟨2, Partition.mirrored r, M r⟩ := fun r =>
    (store_of_ne _ _ (by decide)).trans (store_self ..)
  have hb : ∀ r, made r "b" = some ⟨2, Partition.mirrored r, N r⟩ := fun r =>
    store_self ..
  obtain ⟨outcome, after, hafter, hadd⟩ := hadds 0 "a" "b" _ _ (ha 0) (hb 0) 2
  have hM2 : (M 0).columns = 2 := RowMatrix.columns_of_restrict (hM 0).2
  have hN2 : (N 0).columns = 2 := RowMatrix.columns_of_restrict (hN 0).2
  obtain rfl := hadd.ok_iff.2 ⟨congrArg (Prod.mk 2) (hM2.trans hN2.symm), rfl⟩
  obtain ⟨S, hS, -, hstored⟩ := hadd.sum rfl
  simp only [(hM 0).2, (hN 0).2] at hstored
  refine ⟨made, ?_, (hfaithful "a").resolve_left fun hnone => ?_, after, S, hafter, hS,
    hadd.others "b" (by decide), hstored 0 0, hstored 0 1, hstored 1 1⟩
  · simp only [hrun]
    exact Group.returns_done _
  · cases (hnone 0).symm.trans (ha 0)

end MatrixOperation

end DualHessian
