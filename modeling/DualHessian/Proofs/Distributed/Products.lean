import DualHessian.Proofs.Distributed.Ghosts
import DualHessian.Proofs.Distributed.Sums

/-!
# Inner products over a group

The inner product of two vectors that a group holds counts every degree of freedom once, on the rank
that owns it. Copies never count, whatever laws the arithmetic has; with exact numbers the result is
that of the gathered vectors.

* `Group.dotShare_congr` says that a rank's share depends on what it owns only.
* `Group.dot_counts_once` is the inner product of all ranks.
-/

namespace DualHessian

namespace Group

variable {α : Type} [Arithmetic α] {n size : Nat} {p : Fin size → Partition n}

/-- All ranks obtain the same inner product. -/
def Multiplies (v w : (r : Fin size) → LocalVector α (p r)) (result : α) : Prop :=
  Returns (fun r => ((v r).dot (w r) : Task α .closed α).run) fun _ => .ok result

theorem multiplies_shares (v w : (r : Fin size) → LocalVector α (p r)) :
    Multiplies v w (signedSumOf (List.ofFn fun r => (v r).dotShare (w r))) :=
  (achieves_dot v w).returns_ok

/-- Copies do not count in a rank's share of an inner product. -/
theorem dotShare_congr {q : Partition n} {v v' w w' : LocalVector α q}
    (hv : ∀ i ∈ q.owned, v'.get? i = v.get? i) (hw : ∀ i ∈ q.owned, w'.get? i = w.get? i) :
    v'.dotShare w' = v.dotShare w := by
  -- Of an entry that a rank owns it has a value.
  have hread : ∀ u : LocalVector α q, ∀ i ∈ q.owned, u.get? i = some ((u.get? i).getD 0) := by
    intro u i hi
    obtain ⟨x, hx⟩ := Option.isSome_iff_exists.1
      (LocalVector.isSome_get?_iff (v := u).2 (q.owned_subset i hi))
    rw [hx, Option.getD_some]
  rw [LocalVector.dotShare_eq (hread v) (hread w),
    LocalVector.dotShare_eq (fun i hi => (hv i hi).trans (hread v i hi)) fun i hi =>
      (hw i hi).trans (hread w i hi)]

/-- An inner product over a group counts every degree of freedom once. In any arithmetic all ranks
obtain the same number, which stays the same if copies are changed anywhere. With exact numbers it
is the sum of the products of the entries that the ranks gather. -/
theorem dot_counts_once (hdivide : Partition.Divide p) :
    (∀ {α : Type} [Arithmetic α] (v w : (r : Fin size) → LocalVector α (p r)),
      ∃ result, Multiplies v w result ∧
        ∀ v' w' : (r : Fin size) → LocalVector α (p r),
          (∀ r, ∀ i ∈ (p r).owned, (v' r).get? i = (v r).get? i) →
          (∀ r, ∀ i ∈ (p r).owned, (w' r).get? i = (w r).get? i) → Multiplies v' w' result) ∧
    ∀ {K : Type} [Field K] (v w : (r : Fin size) → LocalVector K (p r)),
      ∃ x y : Vector K n, Gathers v x ∧ Gathers w y ∧ Multiplies v w (∑ k, x.get k * y.get k) := by
  refine ⟨fun v w => ⟨_, multiplies_shares v w, fun v' w' hv hw => ?_⟩, fun v w =>
    ⟨ownersVector v, ownersVector w, gathers_ownersVector hdivide v,
      gathers_ownersVector hdivide w, ?_⟩⟩
  · have hshares : ∀ r, (v' r).dotShare (w' r) = (v r).dotShare (w r) :=
      fun r => dotShare_congr (hv r) (hw r)
    have hmultiplies := multiplies_shares v' w'
    simpa only [hshares] using hmultiplies
  · have hmultiplies := multiplies_shares v w
    rwa [sum_dotShare_ownersVector hdivide] at hmultiplies

/-- Two ranks that hold each other's entry. Their copies are out of date in both vectors; when they
are brought up to date the inner product stays the same. -/
theorem dot_counts_once_two_ranks :
    let v : (r : Fin 2) → LocalVector Rat (Partition.mirrored r) := fun r =>
      ⟨if r = 0 then [1, 7] else [5, 2], by revert r; decide⟩
    let w : (r : Fin 2) → LocalVector Rat (Partition.mirrored r) := fun r =>
      ⟨if r = 0 then [3, 0] else [9, 4], by revert r; decide⟩
    Gathers v #v[1, 2] ∧ Gathers w #v[3, 4] ∧ Multiplies v w 11 ∧
      Multiplies (refreshed v) (refreshed w) 11 := by
  intro v w
  obtain ⟨hany, hexact⟩ := dot_counts_once Partition.divide_mirrored
  obtain ⟨x, y, hx, hy, hproduct⟩ := hexact v w
  have hgathered : ∀ {u : (r : Fin 2) → LocalVector Rat (Partition.mirrored r)} {z : Vector Rat 2},
      Gathers u z → z = ownersVector u := fun hz =>
    Except.ok.inj (congrFun (hz.unique (gathers_ownersVector Partition.divide_mirrored _)) 0)
  obtain rfl : x = #v[1, 2] := (hgathered hx).trans (by decide +kernel)
  obtain rfl : y = #v[3, 4] := (hgathered hy).trans (by decide +kernel)
  have hsum : ∑ k, (#v[1, 2] : Vector Rat 2).get k * (#v[3, 4] : Vector Rat 2).get k = 11 := by
    decide +kernel
  rw [hsum] at hproduct
  obtain ⟨result, hresult, hcopies⟩ := hany v w
  obtain rfl : result = 11 := Except.ok.inj (congrFun (hresult.unique hproduct) 0)
  have hown : ∀ (u : (r : Fin 2) → LocalVector Rat (Partition.mirrored r)) (r : Fin 2),
      ∀ i ∈ (Partition.mirrored r).owned, (refreshed u r).get? i = (u r).get? i := fun u r i hi =>
    get?_refreshed Partition.divide_mirrored u ((Partition.mirrored r).owned_subset i hi) hi
  exact ⟨hx, hy, hproduct, hcopies _ _ (hown v) (hown w)⟩

end Group

end DualHessian
