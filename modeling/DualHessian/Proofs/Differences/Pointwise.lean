import DualHessian.Differences.SecondOrder
import Mathlib.Data.List.Induction
import Mathlib.Data.List.Nodup
import Mathlib.Order.Fin.Basic

/-!
# Second derivatives of a plain function

Of a function without effects, `mixedPartial` and `hessian` take the values at the perturbed points
and leave the point as it was. No law of arithmetic is used: what was moved is put back by setting
it to the old value.

* `mixedPartial_eq` is the estimate for one pair of directions.
* `get_hessian` is an entry of the matrix: the estimate for the smaller and the larger index.
-/

namespace DualHessian

/-! ## Pairs -/

theorem mem_upperPairs {n : Nat} {i j : Fin n} : (i, j) ∈ upperPairs n ↔ i ≤ j := by
  simp [upperPairs]

theorem nodup_upperPairs (n : Nat) : (upperPairs n).Nodup := by
  unfold upperPairs
  rw [List.nodup_flatMap]
  constructor
  · intro i _
    refine List.Nodup.map ?_ ((List.nodup_finRange n).filter _)
    intro j j' h
    exact congrArg Prod.snd h
  · -- Pairs of different rows differ in their first index.
    refine (List.nodup_finRange n).imp fun hne => ?_
    intro e he he'
    obtain ⟨_, _, rfl⟩ := List.mem_map.1 he
    obtain ⟨_, _, heq⟩ := List.mem_map.1 he'
    exact hne (congrArg Prod.fst heq).symm

/-! ## Samples -/

variable {α : Type} [Arithmetic α] {n : Nat} (f : Vector α n → α) (x : Vector α n) (h : α)

/-- A perturbed point with both coordinates put back. -/
theorem set_set_perturbed (i j : Fin n) (d : Int × Int) :
    ((perturbed x i j h d).set i (x.get i) i.isLt).set j (x.get j) j.isLt = x := by
  ext k hk
  have hget : ∀ l : Fin n, x.get l = x[l.val] := fun _ => rfl
  simp only [perturbed, Vector.getElem_set, hget]
  by_cases hj : j.val = k
  · simp [hj]
  · by_cases hi : i.val = k
    · simp [hi, hj]
    · simp [hi, hj]

theorem samplesAt_eq (i j : Fin n) (ds : List (Int × Int)) :
    samplesAt (m := Id) f i j h ds x = (ds.map fun d => f (perturbed x i j h d), x) := by
  induction ds with
  | nil => rfl
  | cons d ds ih =>
    -- The first sample leaves the point as it was.
    have hfirst : sampleAt (m := Id) f i j h x d = (f (perturbed x i j h d), x) :=
      congrArg (Prod.mk _) (set_set_perturbed x h i j d)
    rw [samplesAt, hfirst]
    exact congrArg (fun out => (f (perturbed x i j h d) :: out.1, out.2)) ih

/-- The mixed derivative of a function without effects, from its values on the grid. -/
theorem mixedPartial_eq (i j : Fin n) :
    mixedPartial (m := Id) f x i j h =
      (Stencil.fourthOrder.combine (onGridOf (grid.map fun d => f (perturbed x i j h d))) h,
        x) := by
  rw [mixedPartial, samplesAt_eq]
  rfl

/-! ## The matrix -/

omit [Arithmetic α] in
theorem get_setSymmetric (H : Vector (Vector α n) n) (i j : Fin n) (value : α) (a b : Fin n) :
    ((setSymmetric H i j value).get a).get b =
      if (i = a ∧ j = b) ∨ (j = a ∧ i = b) then value else (H.get a).get b := by
  have hget : ∀ {β : Type} (y : Vector β n) (l : Fin n), y.get l = y[l.val] := fun _ _ => rfl
  by_cases hja : j = a
  · subst hja
    by_cases hij : i = j
    · subst hij
      simp [setSymmetric, hget, Vector.getElem_set, Fin.val_inj]
    · simp [setSymmetric, hget, Vector.getElem_set, Fin.val_inj, hij]
  · by_cases hia : i = a
    · simp [setSymmetric, hget, Vector.getElem_set, Fin.val_inj, hia, hja]
    · simp [setSymmetric, hget, Vector.getElem_set, Fin.val_inj, hia, hja]

omit [Arithmetic α] in
private theorem get_foldl_setSymmetric (value : Fin n → Fin n → α) {pairs : List (Fin n × Fin n)}
    (hpairs : ∀ e ∈ pairs, e.1 ≤ e.2) (H : Vector (Vector α n) n) (a b : Fin n) :
    ((pairs.foldl (fun H e => setSymmetric H e.1 e.2 (value e.1 e.2)) H).get a).get b =
      if (min a b, max a b) ∈ pairs then value (min a b) (max a b) else (H.get a).get b := by
  induction pairs generalizing H with
  | nil => simp
  | cons e pairs ih =>
    obtain ⟨i, j⟩ := e
    have hij : i ≤ j := hpairs _ List.mem_cons_self
    -- The pair is written at the position if it is that of the smaller and the larger index.
    have hpair : (i = a ∧ j = b) ∨ (j = a ∧ i = b) ↔ (min a b, max a b) = (i, j) := by
      rw [Prod.mk.injEq]
      rcases le_total a b with hab | hab
      · rw [min_eq_left hab, max_eq_right hab]
        omega
      · rw [min_eq_right hab, max_eq_left hab]
        omega
    rw [List.foldl_cons, ih fun e he => hpairs e (List.mem_cons_of_mem _ he), get_setSymmetric]
    by_cases hrest : (min a b, max a b) ∈ pairs
    · rw [if_pos hrest, if_pos (List.mem_cons_of_mem _ hrest)]
    · rw [if_neg hrest]
      simp only [hpair, List.mem_cons, hrest, or_false]
      split
      · rename_i heq
        obtain ⟨rfl, rfl⟩ := Prod.mk.inj heq
        rfl
      · rfl

-- The derivatives are those of any computation that leaves the point as it was.
omit [Arithmetic α] in
private theorem foldlM_setSymmetric (derivative : Vector α n → Fin n → Fin n → Id (α × Vector α n))
    {value : Fin n → Fin n → α} (hvalue : ∀ i j, derivative x i j = (value i j, x))
    (pairs : List (Fin n × Fin n)) (H : Vector (Vector α n) n) :
    pairs.foldlM (m := Id) (fun (H, x) (i, j) => do
      let (value, x) ← derivative x i j
      return (setSymmetric H i j value, x)) (H, x) =
        (pairs.foldl (fun H e => setSymmetric H e.1 e.2 (value e.1 e.2)) H, x) := by
  induction pairs generalizing H with
  | nil => rfl
  | cons e pairs ih =>
    simp only [List.foldlM_cons, List.foldl_cons, hvalue]
    exact ih _

/-- An entry of the matrix of second derivatives of a function without effects: the derivative for
the smaller and the larger index. -/
theorem get_hessian (a b : Fin n) :
    ((hessian (m := Id) f x h).1.get a).get b =
      (mixedPartial (m := Id) f x (min a b) (max a b) h).1 := by
  obtain ⟨value, hvalue⟩ : ∃ value : Fin n → Fin n → α,
      ∀ i j, mixedPartial (m := Id) f x i j h = (value i j, x) := ⟨_, mixedPartial_eq f x h⟩
  have hfold : hessian (m := Id) f x h =
      ((upperPairs n).foldl (fun H e => setSymmetric H e.1 e.2 (value e.1 e.2)) _, x) :=
    foldlM_setSymmetric x (fun x i j => mixedPartial (m := Id) f x i j h) hvalue _ _
  have hall : (min a b, max a b) ∈ upperPairs n :=
    mem_upperPairs.2 ((min_le_left a b).trans (le_max_left a b))
  rw [hfold, hvalue]
  exact (get_foldl_setSymmetric value (fun e he => mem_upperPairs.1 he) _ a b).trans (if_pos hall)

end DualHessian
