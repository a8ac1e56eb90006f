import DualHessian.Proofs.Sparse.Entries

/-!
# Adding a multiple of a matrix

What a rank holds after a multiple of another matrix has been added to its own one, and when that is
refused. No law of arithmetic is used.

* `RowMatrix.plus` is the sum, `RowMatrix.stored?_plus` says what it stores.
* `RowMatrix.addMultiple_cases` says that there is a sum exactly for matrices of one shape and
  distribution, and which conflict is reported otherwise.
-/

namespace DualHessian

variable {α : Type} [Add α] [Mul α]

/-- What is stored at a position of a sum, by what both matrices store there. -/
def sum? (factor : α) : Option α → Option α → Option α
  | some a, some b => some (a + factor * b)
  | some a, none => some a
  | none, some b => some (factor * b)
  | none, none => none

namespace RowMatrix

variable {n m : Nat} {p : Partition n} {q : Partition m}

/-- The sum of a matrix and a multiple of another one. -/
def plus (A : RowMatrix α p) (factor : α) (B : RowMatrix α p) : RowMatrix α p :=
  .ofEntries p A.columns (A.part.entries ++ B.part.entries.map (Entry.map (factor * ·)))

/-- A multiple of a matrix of the same shape and distribution can be added. -/
theorem addMultiple_eq {A B : RowMatrix α p} (h : A.columns = B.columns) (factor : α) :
    A.addMultiple factor B = .ok (A.plus factor B) := by
  have hshape : A.shape = B.shape := congrArg (Prod.mk n) h
  have hagrees : p.agrees p = true := Partition.agrees_iff.2 rfl
  rw [addMultiple, if_pos hshape, if_pos hagrees]
  rfl

/-- A sum stores what either matrix stores. -/
theorem stored?_plus {A B : RowMatrix α p} (h : A.columns = B.columns) (factor : α) (i j : Nat) :
    (A.plus factor B).part.stored? i j = sum? factor (A.part.stored? i j) (B.part.stored? i j) := by
  rw [plus, stored?_ofEntries]
  split
  · rw [valuesAt_append, valuesAt_map, SparseMatrix.valuesAt_entries,
      SparseMatrix.valuesAt_entries]
    cases A.part.stored? i j <;> cases B.part.stored? i j <;> rfl
  · rename_i houtside
    -- Nothing is stored in rows of other ranks and beyond the last column.
    have hnone : ∀ C : RowMatrix α p, C.columns = A.columns → C.part.stored? i j = none := by
      intro C hC
      by_cases hi : i ∈ p.owned
      · have hj : A.columns ≤ j := not_lt.1 fun hj => houtside ⟨hi, hj⟩
        exact SparseMatrix.stored?_of_le (hC.trans_le hj) i
      · exact C.stored?_of_not_mem hi j
    rw [hnone A rfl, hnone B h.symm]
    rfl

/-- Different shapes are reported first, then different distributions; otherwise there is a sum. -/
theorem addMultiple_cases (A : RowMatrix α p) (factor : α) (B : RowMatrix α q) :
    A.shape ≠ B.shape ∧ A.addMultiple factor B = .error (.shape A.shape B.shape) ∨
    A.shape = B.shape ∧ (⟨n, p⟩ : Σ n, Partition n) ≠ ⟨m, q⟩ ∧
      A.addMultiple factor B = .error .partition ∨
    A.shape = B.shape ∧ (⟨n, p⟩ : Σ n, Partition n) = ⟨m, q⟩ ∧
      ∃ S, A.addMultiple factor B = .ok S ∧ S.columns = A.columns ∧
        ∀ i j, S.part.stored? i j = sum? factor (A.part.stored? i j) (B.part.stored? i j) := by
  by_cases hshape : A.shape = B.shape
  · obtain ⟨rfl, hcolumns⟩ := Prod.mk.inj hshape
    by_cases hpartition : p = q
    · subst hpartition
      exact .inr (.inr ⟨hshape, rfl, _, addMultiple_eq hcolumns factor, rfl,
        stored?_plus hcolumns factor⟩)
    · have hagrees : ¬p.agrees q = true := fun h => hpartition (Partition.agrees_iff.1 h)
      refine .inr (.inl ⟨hshape, fun h => hpartition (eq_of_heq (Sigma.mk.inj h).2), ?_⟩)
      rw [addMultiple, if_pos hshape, if_neg hagrees]
  · exact .inl ⟨hshape, if_neg hshape⟩

end RowMatrix

end DualHessian
