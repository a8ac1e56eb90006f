import DualHessian.Failure
import DualHessian.Sparse.Pattern

/-!
# Patterns in one list

A `Compressed` holds the columns of all rows of a pattern one after the other, with the offsets at
which the rows start.

* `Compressed.push` adds a row at the end.
* `Compressed.defect?` is the first thing that keeps it from being a pattern with given numbers of
  rows and columns, and `Pattern.ofCompressed` the pattern if there is nothing.
-/

namespace DualHessian

/-- The columns of all rows of a pattern, with the offset at which each row starts and the one at
which the last row ends. -/
structure Compressed where
  /-- The offsets. -/
  offsets : List Nat
  /-- The columns. -/
  columns : List Nat
deriving DecidableEq, Repr

namespace Compressed

/-- No rows. -/
def empty : Compressed := ⟨[0], []⟩

/-- One more row at the end. -/
def push (c : Compressed) (lane : List Nat) : Compressed :=
  let columns := c.columns ++ lane
  ⟨c.offsets ++ [columns.length], columns⟩

/-- The offset at which a row starts. -/
def offset (c : Compressed) (i : Nat) : Nat := c.offsets.getD i 0

/-- The columns of one row. -/
def lane (c : Compressed) (i : Nat) : List Nat :=
  (c.columns.take (c.offset (i + 1))).drop (c.offset i)

/-- What is wrong with the columns of a row behind the column `last?`. -/
def laneDefect? (columns : Nat) (last? : Option Nat) : List Nat → Option PatternDefect
  | [] => none
  | j :: rest =>
    if columns ≤ j then some .columnOutside
    else if last?.any (j < ·) then some .columnsDescend
    else if last? = some j then some .columnRepeated
    else laneDefect? columns (some j) rest

/-- What is wrong with a row. -/
def rowDefect? (columns : Nat) (c : Compressed) (i : Nat) : Option PatternDefect :=
  if c.offset (i + 1) < c.offset i then some .offsetsDescend
  else laneDefect? columns none (c.lane i)

/-- What keeps offsets and columns from being a pattern with these numbers of rows and columns.

These are the documented conditions of the sparse matrix library on the offsets and columns of a
pattern. -/
def defect? (rows columns : Nat) (c : Compressed) : Option PatternDefect :=
  if c.offsets.length ≠ rows + 1 then some .offsetCount
  else if c.offsets.head? ≠ some 0 ∨ c.offsets.getLast? ≠ some c.columns.length then
    some .offsetEnds
  else (List.range rows).findSome? (c.rowDefect? columns)

/-- A row without defect is ascending, belongs to the matrix, and lies behind the column before
it. -/
theorem laneDefect?_eq_none {columns : Nat} {last? : Option Nat} {lane : List Nat} :
    laneDefect? columns last? lane = none ↔
      lane.Pairwise (· < ·) ∧ (∀ j ∈ lane, j < columns) ∧
        ∀ i, last? = some i → ∀ j ∈ lane, i < j := by
  induction lane generalizing last? with
  | nil => simp [laneDefect?]
  | cons j rest ih =>
    rw [laneDefect?, List.pairwise_cons, List.forall_mem_cons]
    split
    · rename_i houtside
      exact ⟨nofun, fun h => absurd h.2.1.1 (Nat.not_lt.2 houtside)⟩
    · rename_i hinside
      split
      · rename_i hdescends
        obtain ⟨i, hi, hji⟩ := Option.any_eq_true _ _ |>.1 hdescends
        have hlt : j < i := of_decide_eq_true hji
        exact ⟨nofun, fun h => absurd (h.2.2 i hi j List.mem_cons_self) (Nat.not_lt_of_lt hlt)⟩
      · rename_i hascends
        split
        · rename_i hrepeated
          exact ⟨nofun, fun h => absurd (h.2.2 j hrepeated j List.mem_cons_self) (Nat.lt_irrefl j)⟩
        · rename_i hnew
          -- Behind `j` means behind all that is before `j` as well.
          have hbehind : ∀ i, last? = some i → i < j := by
            rintro i rfl
            have hle : ¬j < i := by simpa using hascends
            have hne : i ≠ j := by simpa using hnew
            omega
          rw [ih]
          constructor
          · rintro ⟨hsorted, hbounded, hlast⟩
            have hrest := hlast j rfl
            refine ⟨⟨hrest, hsorted⟩, ⟨by omega, hbounded⟩, fun i hi k hk => ?_⟩
            rcases List.mem_cons.1 hk with rfl | hk
            · exact hbehind i hi
            · exact Nat.lt_trans (hbehind i hi) (hrest k hk)
          · rintro ⟨⟨hrest, hsorted⟩, ⟨-, hbounded⟩, -⟩
            exact ⟨hsorted, hbounded, fun i hi => Option.some.inj hi ▸ hrest⟩

theorem lane_of_defect? {rows columns : Nat} {c : Compressed} (h : c.defect? rows columns = none) :
    ∀ lane ∈ (List.range rows).map c.lane,
      lane.Pairwise (· < ·) ∧ ∀ j ∈ lane, j < columns := by
  intro lane hlane
  obtain ⟨i, hi, rfl⟩ := List.mem_map.1 hlane
  unfold defect? at h
  split at h
  · cases h
  · split at h
    · cases h
    · have hrow := List.findSome?_eq_none_iff.1 h i hi
      unfold rowDefect? at hrow
      split at hrow
      · cases hrow
      · exact ⟨(laneDefect?_eq_none.1 hrow).1, (laneDefect?_eq_none.1 hrow).2.1⟩

end Compressed

namespace Pattern

/-- The pattern with the given offsets and columns, if there is one.

This is the documented constructor of the sparse matrix library: it checks its arguments, and what
is wrong with them is the error. -/
def ofCompressed (rows columns : Nat) (c : Compressed) : Except PatternDefect Pattern :=
  match h : c.defect? rows columns with
  | some defect => .error defect
  | none => .ok {
      columns := columns
      lanes := (List.range rows).map c.lane
      sorted := fun lane hlane => (Compressed.lane_of_defect? h lane hlane).1
      bounded := fun lane hlane => (Compressed.lane_of_defect? h lane hlane).2 }

/-- The rows that `keep` admits, one after the other; all others are empty. -/
def compress (p : Pattern) (keep : Nat → Bool) : Compressed :=
  (List.range p.rows).foldl (fun c i => c.push (if keep i then p.lane i else [])) .empty

end Pattern

end DualHessian
