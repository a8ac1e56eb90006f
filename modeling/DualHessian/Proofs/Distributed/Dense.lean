import DualHessian.Proofs.Dofs.Blocks
import DualHessian.Proofs.Distributed.Norms
import DualHessian.Proofs.Sparse.Entries

/-!
# The matrix that a group gathers

All ranks of a group put the matrix that they hold together from what each of them stores. At every
position that is what the owner of the row stores, or zero. No law of arithmetic is used.

* `Dense.tabulate` is the matrix with given entries, `Dense.ofEntries_eq` says which entries a
  matrix has that is made of entries.
* `Group.dense` is the matrix that `Group.achieves_dense` says all ranks obtain.
* `GroupMatrix.valuesAt_flatten` says that the ranks together list what the owner of a row stores
  there, and nothing else; `Group.dense_eq` says what the entries are.
-/

namespace DualHessian

variable {α : Type} {n size : Nat} {p : Fin size → Partition n}

namespace Dense

/-- The matrix with the given entries. -/
def tabulate (rows columns : Nat) (entry : Nat → Nat → α) : Dense α :=
  ⟨columns, (List.range rows).map fun i => (List.range columns).map (entry i)⟩

/-- Only the entries inside matter. -/
theorem tabulate_congr {rows columns : Nat} {a b : Nat → Nat → α}
    (h : ∀ i < rows, ∀ j < columns, a i j = b i j) :
    tabulate rows columns a = tabulate rows columns b := by
  refine congrArg (Dense.mk columns) (List.map_congr_left fun i hi => ?_)
  exact List.map_congr_left fun j hj => h i (List.mem_range.1 hi) j (List.mem_range.1 hj)

/-- The entries are determined by the matrix. -/
theorem eq_of_tabulate_eq {rows columns : Nat} {a b : Nat → Nat → α}
    (h : tabulate rows columns a = tabulate rows columns b) {i j : Nat} (hi : i < rows)
    (hj : j < columns) : a i j = b i j := by
  have hrows := (Dense.mk.inj h).2
  have hrow := List.map_inj_left.1 hrows i (List.mem_range.2 hi)
  exact List.map_inj_left.1 hrow j (List.mem_range.2 hj)

/-- A matrix of which the entries inside are given. -/
theorem tabulate_eq_ofFn {rows columns : Nat} {entry : Nat → Nat → α}
    {f : Fin rows → Fin columns → α} (h : ∀ (i : Fin rows) (j : Fin columns), entry i j = f i j) :
    tabulate rows columns entry = ⟨columns, List.ofFn fun i => List.ofFn (f i)⟩ := by
  have hrow : ∀ i : Fin rows, (List.range columns).map (entry i) = List.ofFn (f i) := by
    intro i
    refine List.ext_getElem (by simp) fun j hj _ => ?_
    simp [h i ⟨j, by simpa using hj⟩]
  refine congrArg (Dense.mk columns) (List.ext_getElem (by simp) fun i hi _ => ?_)
  simp [hrow ⟨i, by simpa using hi⟩]

/-- An entry is what is given for its position, added onto zero. -/
theorem ofEntries_eq [Arithmetic α] (rows columns : Nat) (entries : List (Entry α)) :
    ofEntries rows columns entries =
      tabulate rows columns fun i j => sumOf (valuesAt entries i j) := by
  refine congrArg (Dense.mk columns) (List.map_congr_left fun i _ => ?_)
  refine List.map_congr_left fun j _ => ?_
  -- The row is chosen first and the column then.
  have hat : (entries.filter (·.row == i)).filter (·.column == j) =
      entries.filter (Entry.isAt i j) := by
    rw [List.filter_filter]
    exact List.filter_congr fun e _ => Bool.and_comm ..
  rw [hat]
  rfl

end Dense

/-- Lists of which only one is not empty. -/
private theorem flatMap_eq_of_unique {X Y : Type} {xs : List X} (hnodup : xs.Nodup) {x : X}
    (hx : x ∈ xs) {f : X → List Y} (h : ∀ y, y ≠ x → f y = []) : xs.flatMap f = f x := by
  obtain ⟨before, after, rfl⟩ := List.append_of_mem hx
  obtain ⟨hbefore, hafter⟩ : x ∉ before ∧ x ∉ after := by
    simp only [List.nodup_middle, List.nodup_cons, List.mem_append, not_or] at hnodup
    exact hnodup.1
  have hnone : ∀ ys : List X, x ∉ ys → ys.flatMap f = [] := fun ys hys =>
    List.flatMap_eq_nil_iff.2 fun y hy => h y fun hyx => hys (hyx ▸ hy)
  rw [List.flatMap_append, List.flatMap_cons, hnone before hbefore, hnone after hafter,
    List.nil_append, List.append_nil]

/-- The ranks together list what the owner of a row stores there, once. -/
theorem GroupMatrix.valuesAt_flatten (hdivide : Partition.Divide p) (A : GroupMatrix α p)
    {r : Fin size} {i : Nat} (hi : i ∈ (p r).owned) (j : Nat) :
    valuesAt (List.ofFn fun r => (A r).part.entries).flatten i j =
      ((A r).part.stored? i j).toList := by
  obtain ⟨_, _, hunique⟩ := hdivide i ((p r).lt_of_mem_owned hi)
  -- Other ranks store nothing in this row.
  have hothers : ∀ s, s ≠ r → ((A s).part.stored? i j).toList = [] := by
    intro s hs
    have hrow : i ∉ (p s).owned := fun h => hs ((hunique s h).trans (hunique r hi).symm)
    rw [SparseMatrix.stored?, (A s).lane_part i hrow]
    rfl
  simp only [valuesAt_flatten_ofFn, SparseMatrix.valuesAt_entries]
  rw [flatMap_eq_of_unique (List.nodup_finRange size) (List.mem_finRange r) hothers]

namespace Group

variable [Arithmetic α]

/-- The matrix with all its entries. -/
def dense (A : GroupMatrix α p) (columns : Nat) : Dense α :=
  .ofEntries n columns (List.ofFn fun r => (A r).part.entries).flatten

/-- All ranks obtain the matrix with all its entries, if they agree on the number of columns. -/
theorem achieves_dense {P : Interface} {R : Replies P size} (A : GroupMatrix α p) {columns : Nat}
    (hcolumns : ∀ r, (A r).columns = columns) :
    Achieves R (fun b => b = fun _ => dense A columns) fun r =>
      ((A r).dense : Task α P (Dense α)) := by
  have hinside : (List.ofFn fun r => (A r).part.entries).flatten.all
      (Entry.isInside n columns) = true := by
    rw [List.all_eq_true]
    intro e he
    obtain ⟨entries, hentries, he⟩ := List.mem_flatten.1 he
    obtain ⟨r, rfl⟩ := (List.mem_ofFn' _ entries).1 hentries
    have hmem := SparseMatrix.isInside_of_mem_entries he
    rw [(A r).rows_part] at hmem
    exact hcolumns r ▸ hmem
  refine (achieves_gatherAll .entries fun r => (A r).part.entries).andThen _ ?_
  rintro _ rfl
  refine .of_eq_pure (fun r => ?_) rfl
  rw [hcolumns r]
  exact if_pos hinside

/-- The entries of the matrix are what the owners of its rows store, added onto zero. -/
theorem dense_eq (hdivide : Partition.Divide p) (A : GroupMatrix α p) {columns : Nat}
    {entry : Nat → Nat → α}
    (hentry : ∀ r, ∀ i ∈ (p r).owned, ∀ j < columns,
      sumOf ((A r).part.stored? i j).toList = entry i j) :
    dense A columns =
      ⟨columns, (List.range n).map fun i => (List.range columns).map (entry i)⟩ := by
  refine (Dense.ofEntries_eq ..).trans (Dense.tabulate_congr fun i hi j hj => ?_)
  obtain ⟨r, hr, _⟩ := hdivide i hi
  rw [GroupMatrix.valuesAt_flatten hdivide A hr]
  exact hentry r i hr j hj

end Group

end DualHessian
