import DualHessian.Proofs.Dofs.Blocks
import Mathlib.Data.List.OfFn
import Mathlib.Data.List.Sort

/-!
# Balanced blocks

The blocks of `Partition.contiguous`, put one after the other in the order of the ranks, are all
degrees of freedom in their order, and no two of them differ in length by more than one.

* `Partition.elements_of_block` says that a rank owns the numbers from the start of its block to the
  start of the next one.
* `Partition.contiguousWithin` computes a block with numbers up to a limit, and has no result if it
  meets a larger one. By `Partition.contiguousWithin_eq` the number of degrees of freedom is enough.
* `Partition.contiguous_balanced` is the division into blocks.
-/

namespace DualHessian

namespace Partition

variable {n size : Nat}

/-! ## Blocks in a row -/

/-- A rank that owns what lies in its block owns it in ascending order. -/
theorem elements_of_block {p : Partition n} {rank : Nat}
    (h : ∀ i, i ∈ p.owned ↔ blockStart n size rank ≤ i ∧ i < blockStart n size (rank + 1)) :
    p.owned.elements = List.range' (blockStart n size rank)
      (blockStart n size (rank + 1) - blockStart n size rank) := by
  refine p.owned.sorted.eq_of_mem_iff List.pairwise_lt_range' fun i => ?_
  have hle : blockStart n size rank ≤ blockStart n size (rank + 1) :=
    blockStart_mono (Nat.le_succ rank)
  rw [DofSet.mem_elements, h i, List.mem_range'_1]
  omega

/-- Ranges each of which starts where the one before it ends are one range. -/
private theorem flatten_ranges {start : Nat → Nat} (h : ∀ k, start k ≤ start (k + 1))
    (count : Nat) :
    (List.ofFn fun k : Fin count => List.range' (start k) (start (k + 1) - start k)).flatten =
      List.range' (start 0) (start count - start 0) := by
  induction count with
  | zero => simp
  | succ count ih =>
    have hstart : start 0 ≤ start count := monotone_nat_of_le_succ h (Nat.zero_le count)
    have hnext : start count = start 0 + 1 * (start count - start 0) := by omega
    have hlength : start (count + 1) - start 0 =
        (start count - start 0) + (start (count + 1) - start count) := by
      have hlast := h count
      omega
    rw [List.ofFn_succ', List.concat_eq_append, List.flatten_concat]
    simp only [Fin.val_castSucc, Fin.val_last]
    rw [ih, hlength, ← List.range'_append, ← hnext]

/-- The length of a block. -/
theorem blockStart_succ_sub (n size rank : Nat) :
    blockStart n size (rank + 1) - blockStart n size rank =
      n / size + if rank < n % size then 1 else 0 := by
  rw [blockStart_succ, Nat.add_assoc, Nat.add_sub_cancel_left]

/-! ## Numbers up to a limit -/

/-- A number that does not exceed a limit. -/
def fitting (limit value : Nat) : Option Nat := if value ≤ limit then some value else none

/-- The difference of two numbers, unless the second one is larger. -/
def difference (a b : Nat) : Option Nat := if b ≤ a then some (a - b) else none

/-- The block of a rank as `contiguous` computes it, with numbers up to a limit. There is no result
if an intermediate value exceeds the limit, or if a larger number is subtracted from a smaller
one. -/
def contiguousWithin (limit n rank size : Nat) : Option (Except Violation (Partition n)) :=
  if rank < size then do
    let base ← fitting limit (n / size)
    let extra ← fitting limit (n % size)
    let skipped ← fitting limit (rank * base)
    let longer ← fitting limit (min rank extra)
    let first ← fitting limit (skipped + longer)
    let short ← fitting limit (first + base)
    let more ← fitting limit (if rank < extra then 1 else 0)
    let last ← fitting limit (short + more)
    let length ← difference last first
    return do
      let owned ← DofSet.ofList n (List.range' first length)
      ofSets n owned owned
  else
    some (.error (.rankOutside rank size))

private theorem fitting_of_le {limit value : Nat} (h : value ≤ limit) :
    fitting limit value = some value := if_pos h

/-- Numbers up to the number of degrees of freedom are enough for every block, also if there are
more ranks than degrees of freedom. -/
theorem contiguousWithin_eq {limit : Nat} (hlimit : n ≤ limit) (rank size : Nat) :
    contiguousWithin limit n rank size = some (contiguous n rank size) := by
  unfold contiguousWithin contiguous
  split
  · rename_i hrank
    have hpos : 0 < size := Nat.zero_lt_of_lt hrank
    -- The end of the block bounds all that is computed on the way to it.
    have hend : blockStart n size (rank + 1) ≤ n :=
      Nat.le_trans (blockStart_mono hrank) (Nat.le_of_eq (blockStart_size hpos))
    rw [blockStart_succ, blockStart] at hend
    have hbase : n / size ≤ n := Nat.div_le_self n size
    have hextra : n % size ≤ n := Nat.mod_le n size
    have hmore : (if rank < n % size then 1 else 0) ≤ n := by split <;> omega
    have hfits : ∀ {value}, value ≤ n → fitting limit value = some value := fun h =>
      fitting_of_le (Nat.le_trans h hlimit)
    have hshort := Nat.le_trans (Nat.le_add_right _ _) hend
    have hfirst := Nat.le_trans (Nat.le_add_right _ _) hshort
    have hforward : rank * (n / size) + min rank (n % size) ≤
        rank * (n / size) + min rank (n % size) + n / size +
          if rank < n % size then 1 else 0 :=
      Nat.le_trans (Nat.le_add_right _ _) (Nat.le_add_right _ _)
    simp only [hfits hbase, hfits hextra, hfits (Nat.le_trans (Nat.le_add_right _ _) hfirst),
      hfits (Nat.le_trans (Nat.le_add_left _ _) hfirst), hfits hfirst, hfits hshort, hfits hmore,
      hfits hend, difference, if_pos hforward, Option.bind_eq_bind, Option.bind_some]
    rfl
  · rfl

/-! ## The division -/

/-- The blocks of a group. Every rank of a group of at least one rank obtains its block, by a
computation none of whose values exceeds the number of degrees of freedom. The blocks one after the
other are all degrees of freedom in their order, and the blocks of the first ranks are longer by
one, as many of them as degrees of freedom are left over. -/
theorem contiguous_balanced (n : Nat) {size : Nat} (hsize : 0 < size) :
    ∃ p : Fin size → Partition n,
      (∀ r : Fin size, contiguous n r size = .ok (p r) ∧
        contiguousWithin n n r size = some (.ok (p r))) ∧
      (List.ofFn fun r => (p r).owned.elements).flatten = List.range n ∧
      ∀ r : Fin size, (p r).owned.count = n / size + if r.val < n % size then 1 else 0 := by
  choose p hp howned using fun r : Fin size => contiguous_ok (n := n) r.isLt
  have helements : ∀ r : Fin size, (p r).owned.elements = List.range' (blockStart n size r)
      (blockStart n size (r + 1) - blockStart n size r) := fun r => elements_of_block (howned r)
  refine ⟨p, fun r => ⟨hp r, ?_⟩, ?_, fun r => ?_⟩
  · rw [contiguousWithin_eq (Nat.le_refl n), hp r]
  · simp only [helements]
    rw [flatten_ranges fun rank => blockStart_mono (Nat.le_succ rank), blockStart_zero,
      blockStart_size hsize, Nat.sub_zero, List.range_eq_range']
  · rw [DofSet.count, helements r, List.length_range', blockStart_succ_sub]

/-- Five ranks divide three degrees of freedom: the last two own nothing. -/
theorem contiguous_balanced_five_ranks :
    0 < 5 ∧ ∃ p : Fin 5 → Partition 3,
      (∀ r : Fin 5, contiguous 3 r 5 = .ok (p r) ∧ contiguousWithin 3 3 r 5 = some (.ok (p r))) ∧
      (List.ofFn fun r => (p r).owned.elements).flatten = [0, 1, 2] ∧
      ∀ r : Fin 5, (p r).owned.count = if r.val < 3 then 1 else 0 := by
  obtain ⟨p, hp, hall, hcount⟩ := contiguous_balanced 3 (by decide : 0 < 5)
  refine ⟨by decide, p, hp, hall, fun r => ?_⟩
  exact (hcount r).trans (Nat.zero_add _)

end Partition

end DualHessian
