import DualHessian.Dofs.Partition
import Mathlib.Data.Nat.Find
import Mathlib.Logic.ExistsUnique
import Mathlib.Tactic.Choose

/-!
# Division into blocks

`Partition.contiguous` gives the ranks of a group blocks that divide the degrees of freedom: each
belongs to exactly one rank, also when there are more ranks than degrees of freedom. Ghosts do not
change who owns what.

* `Partition.blockStart` is the first index of a block, and the block of a rank ends where the next
  one starts.
* `Partition.Divide` says that every degree of freedom has exactly one owner, and
  `Partition.divide_of_blocks` that blocks with or without ghosts do.
-/

namespace DualHessian

namespace Partition

variable {n size : Nat}

/-! ## Blocks -/

/-- The first index of the block of a rank. The first ranks own one degree of freedom more than the
others, as many as are left over. -/
def blockStart (n size rank : Nat) : Nat := rank * (n / size) + min rank (n % size)

/-- The block of a rank is followed by that of the next rank. -/
theorem blockStart_succ (n size rank : Nat) :
    blockStart n size (rank + 1) =
      blockStart n size rank + n / size + if rank < n % size then 1 else 0 := by
  unfold blockStart
  rw [Nat.add_mul, Nat.one_mul]
  split <;> omega

theorem blockStart_mono {rank rank' : Nat} (h : rank ≤ rank') :
    blockStart n size rank ≤ blockStart n size rank' := by
  induction h with
  | refl => exact Nat.le_refl _
  | step _ ih =>
    rw [blockStart_succ, Nat.add_assoc]
    exact Nat.le_trans ih (Nat.le_add_right _ _)

theorem blockStart_zero : blockStart n size 0 = 0 := by
  simp [blockStart]

theorem blockStart_size (h : 0 < size) : blockStart n size size = n := by
  have hlt : n % size < size := Nat.mod_lt n h
  have hdiv : size * (n / size) + n % size = n := Nat.div_add_mod n size
  unfold blockStart
  omega

/-- Every index lies in some block. -/
theorem exists_block (h : 0 < size) {i : Nat} (hi : i < n) :
    ∃ rank < size, blockStart n size rank ≤ i ∧ i < blockStart n size (rank + 1) := by
  -- The first rank whose block ends behind the index.
  have hsome : ∃ rank, i < blockStart n size rank := ⟨size, (blockStart_size h).symm ▸ hi⟩
  have hspec := Nat.find_spec hsome
  have hpos : Nat.find hsome ≠ 0 := by
    intro hzero
    rw [hzero, blockStart_zero] at hspec
    exact Nat.not_lt_zero i hspec
  obtain ⟨rank, hrank⟩ := Nat.exists_eq_succ_of_ne_zero hpos
  rw [hrank] at hspec
  refine ⟨rank, ?_, ?_, hspec⟩
  · have hle : Nat.find hsome ≤ size := Nat.find_min' hsome ((blockStart_size h).symm ▸ hi)
    omega
  · exact Nat.le_of_not_lt (Nat.find_min hsome (by omega))

/-- An index lies in one block only. -/
theorem block_unique {i rank rank' : Nat} (h : blockStart n size rank ≤ i)
    (hlt : i < blockStart n size (rank + 1)) (h' : blockStart n size rank' ≤ i)
    (hlt' : i < blockStart n size (rank' + 1)) : rank = rank' := by
  -- The block of a lower rank ends before that of a higher one starts.
  rcases Nat.lt_trichotomy rank rank' with hrank | hrank | hrank
  · have hmono : blockStart n size (rank + 1) ≤ blockStart n size rank' := blockStart_mono hrank
    omega
  · exact hrank
  · have hmono : blockStart n size (rank' + 1) ≤ blockStart n size rank := blockStart_mono hrank
    omega

/-! ## Partitions -/

/-- Every degree of freedom has exactly one owner. -/
def Divide (p : Fin size → Partition n) : Prop := ∀ i < n, ∃! r, i ∈ (p r).owned

/-- What the ranks say about the indices that they own, put together. -/
theorem Divide.exists_joined {β : Type} [Zero β] {p : Fin size → Partition n} (h : Divide p)
    (f : Fin size → Nat → β) : ∃ g : Nat → β, ∀ r, ∀ i ∈ (p r).owned, g i = f r i := by
  choose owner _ hunique using fun i : Fin n => h i.1 i.2
  refine ⟨fun i => if hi : i < n then f (owner ⟨i, hi⟩) i else 0, fun r i hi => ?_⟩
  have hlt : i < n := (p r).lt_of_mem_owned hi
  refine (dif_pos hlt).trans ?_
  rw [← hunique ⟨i, hlt⟩ r hi]

private theorem ofSets_ok {owned relevant : DofSet} (howned : owned.size = n)
    (hrelevant : relevant.size = n) (h : ∀ i ∈ owned, i ∈ relevant) :
    ofSets n owned relevant = .ok ⟨owned, relevant, howned, hrelevant, h⟩ := by
  rw [ofSets, dif_pos howned, dif_pos hrelevant, dif_pos (DofSet.isSubset_iff.2 h)]

/-- The partition of a rank that owns its block. -/
theorem contiguous_ok {rank : Nat} (h : rank < size) :
    ∃ p : Partition n, contiguous n rank size = .ok p ∧
      ∀ i, i ∈ p.owned ↔ blockStart n size rank ≤ i ∧ i < blockStart n size (rank + 1) := by
  have hle : blockStart n size (rank + 1) ≤ n :=
    Nat.le_trans (blockStart_mono h) (Nat.le_of_eq (blockStart_size (Nat.zero_lt_of_lt h)))
  have hfirst : blockStart n size rank ≤ blockStart n size (rank + 1) :=
    blockStart_mono (Nat.le_succ rank)
  -- The code counts to the end of the block, which is the start of the next one.
  have hmem : ∀ i, i ∈ List.range' (blockStart n size rank)
      (blockStart n size (rank + 1) - blockStart n size rank) ↔
      blockStart n size rank ≤ i ∧ i < blockStart n size (rank + 1) := by
    intro i
    rw [List.mem_range'_1]
    omega
  obtain ⟨owned, howned, hsize, hiff⟩ :=
    DofSet.ofList_ok fun i hi => Nat.lt_of_lt_of_le ((hmem i).1 hi).2 hle
  refine ⟨⟨owned, owned, hsize, hsize, fun _ hi => hi⟩, ?_, fun i => (hiff i).trans (hmem i)⟩
  rw [contiguous, if_pos h]
  have hrange : DofSet.ofRange n (blockStart n size rank)
      (blockStart n size rank + n / size + if rank < n % size then 1 else 0) = .ok owned := by
    rw [← blockStart_succ, DofSet.ofRange, howned]
  have hsets := ofSets_ok hsize hsize fun i (hi : i ∈ owned) => hi
  show (DofSet.ofRange n (blockStart n size rank)
    (blockStart n size rank + n / size + if rank < n % size then 1 else 0) >>= fun owned =>
      ofSets n owned owned) = _
  rw [hrange]
  exact hsets

/-- Ghosts can be added if the columns of the owned rows are degrees of freedom. They leave the
owned indices as they are, and make these columns relevant. -/
theorem withGhosts_of_lt (p : Partition n) {pattern : Pattern} (hrows : pattern.rows = n)
    (hcolumns : ∀ i ∈ p.owned, ∀ j ∈ pattern.lane i, j < n) :
    ∃ q, p.withGhosts pattern = .ok q ∧ q.owned = p.owned ∧
      ∀ j, j ∈ q.relevant ↔ j ∈ p.relevant ∨ ∃ i ∈ p.owned, j ∈ pattern.lane i := by
  have hbounded : ∀ i ∈ p.relevant.elements ++ p.owned.elements.flatMap pattern.lane, i < n := by
    intro i hi
    rcases List.mem_append.1 hi with hi | hi
    · exact p.lt_of_mem_relevant hi
    · obtain ⟨j, hj, hi⟩ := List.mem_flatMap.1 hi
      exact hcolumns j hj i hi
  obtain ⟨relevant, hrelevant, hsize, hiff⟩ := DofSet.ofList_ok hbounded
  have hsubset : ∀ i ∈ p.owned, i ∈ relevant := fun i hi =>
    (hiff i).2 (List.mem_append_left _ (p.owned_subset i hi))
  refine ⟨⟨p.owned, relevant, p.owned_size, hsize, hsubset⟩, ?_, rfl, fun j => ?_⟩
  · rw [withGhosts, if_pos hrows]
    show (DofSet.ofList n (p.relevant.elements ++ p.owned.elements.flatMap pattern.lane) >>=
      fun relevant => ofSets n p.owned relevant) = _
    rw [hrelevant]
    exact ofSets_ok p.owned_size hsize hsubset
  · refine (hiff j).trans ?_
    rw [List.mem_append, List.mem_flatMap]
    exact Iff.rfl

/-- Ghosts can be added for every square pattern. -/
theorem withGhosts_ok (p : Partition n) {pattern : Pattern} (hrows : pattern.rows = n)
    (hcolumns : pattern.columns = n) :
    ∃ q, p.withGhosts pattern = .ok q ∧ q.owned = p.owned ∧
      ∀ j, j ∈ q.relevant ↔ j ∈ p.relevant ∨ ∃ i ∈ p.owned, j ∈ pattern.lane i := by
  refine p.withGhosts_of_lt hrows fun i hi j hj => ?_
  have hlane := Pattern.lane_mem (p := pattern) (hrows.symm ▸ p.lt_of_mem_owned hi)
  exact hcolumns ▸ pattern.bounded _ hlane j hj

/-- Blocks divide the degrees of freedom, whatever is relevant besides. -/
theorem divide_of_blocks (hsize : 0 < size) {p : Fin size → Partition n}
    (h : ∀ r i, i ∈ (p r).owned ↔ blockStart n size r ≤ i ∧ i < blockStart n size (r + 1)) :
    Divide p := by
  intro i hi
  obtain ⟨rank, hrank, hblock⟩ := exists_block hsize hi
  refine ⟨⟨rank, hrank⟩, (h _ i).2 hblock, fun r hr => Fin.ext ?_⟩
  obtain ⟨hle, hlt⟩ := (h r i).1 hr
  exact block_unique hle hlt hblock.1 hblock.2

/-! ## Small partitions -/

/-- The only degree of freedom of a system, on the rank that owns it. -/
def single : Partition 1 where
  owned := ⟨1, [0], by simp, by simp⟩
  relevant := ⟨1, [0], by simp, by simp⟩
  owned_size := rfl
  relevant_size := rfl
  owned_subset _ h := h

theorem divide_single : Divide fun _ : Fin 1 => single := by
  intro i hi
  refine ⟨0, ?_, fun r _ => Subsingleton.elim r 0⟩
  obtain rfl : i = 0 := Nat.lt_one_iff.1 hi
  exact List.mem_singleton_self 0

/-- The only degree of freedom of a system, on two ranks of which the second one owns it. -/
def ownedBySecond : Fin 2 → Partition 1
  | 0 => ⟨.empty 1, .empty 1, rfl, rfl, fun _ h => h⟩
  | 1 => single

/-- Two degrees of freedom on two ranks, each of which owns one and has a copy of the other. -/
def mirrored (r : Fin 2) : Partition 2 where
  owned := ⟨2, [r.val], List.pairwise_singleton _ _, fun _ h => List.mem_singleton.1 h ▸ r.isLt⟩
  relevant := ⟨2, [0, 1], by decide, by decide⟩
  owned_size := rfl
  relevant_size := rfl
  owned_subset i h := by
    obtain rfl := List.mem_singleton.1 h
    exact (by decide : ∀ r : Fin 2, r.val ∈ [0, 1]) r

theorem divide_mirrored : Divide mirrored := by
  intro i hi
  refine ⟨⟨i, hi⟩, List.mem_singleton.2 rfl, fun r hr => Fin.ext ?_⟩
  exact (List.mem_singleton.1 hr).symm

end Partition

end DualHessian
