import DualHessian.Proofs.Distributed.Values
import DualHessian.Proofs.Numbers.Exact
import Mathlib.Algebra.BigOperators.Fin

/-!
# Sums over ranks

With exact numbers it does not matter how the degrees of freedom are divided: what the ranks add up
share by share is the sum over all degrees of freedom.
-/

namespace DualHessian

variable {K : Type} [Field K] {n size : Nat}

/-- A sum over ranks and the degrees of freedom that they own is a sum over all of these. -/
theorem Partition.Divide.sum_owned {p : Fin size → Partition n} (hdivide : Divide p)
    (f : Nat → K) :
    ∑ r, ∑ i ∈ Finset.range n, (if i ∈ (p r).owned then f i else 0) =
      ∑ i ∈ Finset.range n, f i := by
  rw [Finset.sum_comm]
  -- Of the terms for one degree of freedom only that of its owner is left.
  apply Finset.sum_congr rfl
  intro i hi
  obtain ⟨owner, howner, hunique⟩ := hdivide i (Finset.mem_range.1 hi)
  rw [Finset.sum_eq_single owner]
  · exact if_pos howner
  · intro r _ hne
    exact if_neg fun h => hne (hunique r h)
  · intro h
    exact absurd (Finset.mem_univ owner) h

private theorem sum_elements (q : Partition n) (f : Nat → K) :
    (q.owned.elements.map f).sum = ∑ i ∈ Finset.range n, if i ∈ q.owned then f i else 0 := by
  have hnodup : q.owned.elements.Nodup := q.owned.sorted.imp fun hlt => Nat.ne_of_lt hlt
  have hmem : q.owned.elements.toFinset = (Finset.range n).filter fun i => i ∈ q.owned := by
    ext i
    rw [List.mem_toFinset, Finset.mem_filter, Finset.mem_range]
    exact ⟨fun h => ⟨q.lt_of_mem_owned h, h⟩, fun h => h.2⟩
  rw [← List.sum_toFinset f hnodup, hmem, Finset.sum_filter]

namespace Group

variable {p : Fin size → Partition n}

/-- The shares of an inner product add up to the sum of the products of what the owners hold. -/
theorem sum_dotShare (hdivide : Partition.Divide p) {v w : (r : Fin size) → LocalVector K (p r)}
    {f g : Nat → K} (hv : ∀ r, ∀ i ∈ (p r).owned, (v r).get? i = some (f i))
    (hw : ∀ r, ∀ i ∈ (p r).owned, (w r).get? i = some (g i)) :
    signedSumOf (List.ofFn fun r => (v r).dotShare (w r)) =
      ∑ i ∈ Finset.range n, f i * g i := by
  have hshare : ∀ r, (v r).dotShare (w r) =
      ∑ i ∈ Finset.range n, if i ∈ (p r).owned then f i * g i else 0 := by
    intro r
    rw [LocalVector.dotShare_eq (hv r) (hw r), signedSumOf_eq_sum, sum_elements]
  rw [signedSumOf_eq_sum, List.sum_ofFn]
  simp only [hshare]
  exact hdivide.sum_owned _

/-- The inner product of the owners' values is the sum of the products of their entries. -/
theorem sum_dotShare_ownersVector (hdivide : Partition.Divide p)
    (v w : (r : Fin size) → LocalVector K (p r)) :
    signedSumOf (List.ofFn fun r => (v r).dotShare (w r)) =
      ∑ k, (ownersVector v).get k * (ownersVector w).get k := by
  have hread : ∀ (u : (r : Fin size) → LocalVector K (p r)) (r : Fin size), ∀ i ∈ (p r).owned,
      (u r).get? i = some ((ownersVector u)[i]?.getD 0) := by
    intro u r i hi
    have hlt : i < n := (p r).lt_of_mem_owned hi
    rw [← getElem?_ownersVector hdivide u hi, Vector.getElem?_eq_getElem hlt, Option.getD_some]
  rw [sum_dotShare hdivide (hread v) (hread w), Finset.sum_range]
  refine Finset.sum_congr rfl fun k _ => ?_
  rw [Vector.getElem?_eq_getElem k.isLt, Vector.getElem?_eq_getElem k.isLt]
  rfl

/-- The inner product of two global vectors is the sum of the products of their entries. -/
theorem product_eq (hdivide : Partition.Divide p) (x y : Vector K n) :
    product p (fun _ => x) y = ∑ k, x.get k * y.get k := by
  have hsum := sum_dotShare_ownersVector hdivide (fun r => LocalVector.ofVector (p r) x)
    (fun r => LocalVector.ofVector (p r) y)
  rwa [ownersVector_ofVector hdivide x, ownersVector_ofVector hdivide y] at hsum

end Group

end DualHessian
