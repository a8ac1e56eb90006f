import DualHessian.System.Description

/-!
# Restricting a pattern row by row

A rank rebuilds the rows of a pattern that it owns in one list of columns, and checks the result as
if it came from outside. The check always succeeds, and the result is `Pattern.restrict`.

* `Compressed.Holds` says which rows offsets and columns stand for. Pushing a row keeps it
  (`Compressed.Holds.push`), and so does pushing one after the other
  (`Compressed.Holds.foldl_push`).
* `Compressed.Holds.defect?_eq_none` says that nothing is wrong with rows that are those of a
  pattern.
* `Description.ownedRows_eq` is the restriction to the rows of a rank.
-/

namespace DualHessian

namespace Compressed

/-- Offsets and columns stand for these rows: the columns are theirs, one row after the other, and a
row starts behind the columns of the rows before it. -/
structure Holds (c : Compressed) (lanes : List (List Nat)) : Prop where
  /-- The columns of all rows. -/
  columns_eq : c.columns = lanes.flatten
  /-- The offsets of all rows, and the end of the last one. -/
  offsets_eq : c.offsets =
    (List.range (lanes.length + 1)).map fun i => (lanes.take i).flatten.length

theorem holds_empty : Holds empty [] := ⟨rfl, rfl⟩

namespace Holds

variable {c : Compressed} {lanes : List (List Nat)}

/-- A row added at the end leaves the rows before it where they are. -/
theorem push (h : Holds c lanes) (lane : List Nat) : Holds (c.push lane) (lanes ++ [lane]) := by
  refine ⟨?_, ?_⟩
  · simp [Compressed.push, h.columns_eq]
  · have hbefore : ∀ i ∈ List.range (lanes.length + 1),
        ((lanes ++ [lane]).take i).flatten.length = (lanes.take i).flatten.length := by
      intro i hi
      rw [List.take_append_of_le_length (Nat.le_of_lt_succ (List.mem_range.1 hi))]
    have hlast : (lanes ++ [lane]).take (lanes.length + 1) = lanes ++ [lane] :=
      List.take_of_length_le (by simp)
    rw [List.length_append, List.length_singleton, List.range_succ, List.map_append,
      List.map_singleton, List.map_congr_left hbefore, hlast, ← h.offsets_eq]
    simp [Compressed.push, h.columns_eq]

/-- Rows added one after the other. -/
theorem foldl_push (h : Holds c lanes) (rest : List (List Nat)) :
    Holds (rest.foldl Compressed.push c) (lanes ++ rest) := by
  induction rest generalizing c lanes with
  | nil => simpa using h
  | cons lane rest ih =>
    rw [List.foldl_cons, List.append_cons]
    exact ih (h.push lane)

theorem offset_eq (h : Holds c lanes) {i : Nat} (hi : i ≤ lanes.length) :
    c.offset i = (lanes.take i).flatten.length := by
  have hlt : i < lanes.length + 1 := Nat.lt_succ_of_le hi
  simp [offset, h.offsets_eq, hlt]

/-- A row is found between its offset and the next one. -/
theorem lane_eq (h : Holds c lanes) {i : Nat} (hi : i < lanes.length) : c.lane i = lanes[i] := by
  have htake : (lanes.take (i + 1)).flatten = (lanes.take i).flatten ++ lanes[i] := by
    rw [List.take_succ_eq_append_getElem hi, List.flatten_append, List.flatten_singleton]
  have hsplit : c.columns = (lanes.take (i + 1)).flatten ++ (lanes.drop (i + 1)).flatten := by
    rw [← List.flatten_append, List.take_append_drop, h.columns_eq]
  rw [lane, h.offset_eq hi, h.offset_eq (Nat.le_of_lt hi), hsplit, List.take_left, htake,
    List.drop_left]

/-- Nothing is wrong with offsets and columns that stand for the rows of a pattern. -/
theorem defect?_eq_none (h : Holds c lanes) {columns : Nat}
    (hsorted : ∀ lane ∈ lanes, lane.Pairwise (· < ·))
    (hbounded : ∀ lane ∈ lanes, ∀ j ∈ lane, j < columns) :
    c.defect? lanes.length columns = none := by
  have hlength : c.offsets.length = lanes.length + 1 := by simp [h.offsets_eq]
  have hends : c.offsets.head? = some 0 ∧ c.offsets.getLast? = some c.columns.length := by
    rw [h.offsets_eq, h.columns_eq]
    refine ⟨by simp [List.range_succ_eq_map], ?_⟩
    rw [List.range_succ, List.map_append, List.map_singleton, List.getLast?_concat,
      List.take_length]
  rw [defect?, if_neg (not_not_intro hlength), if_neg fun h => h.elim (· hends.1) (· hends.2),
    List.findSome?_eq_none_iff]
  intro i hi
  have hi : i < lanes.length := List.mem_range.1 hi
  have hforward : ¬c.offset (i + 1) < c.offset i := by
    rw [h.offset_eq hi, h.offset_eq (Nat.le_of_lt hi), List.take_succ_eq_append_getElem hi,
      List.flatten_append, List.length_append]
    exact Nat.not_lt.2 (Nat.le_add_right _ _)
  rw [rowDefect?, if_neg hforward, h.lane_eq hi, laneDefect?_eq_none]
  exact ⟨hsorted _ (List.getElem_mem hi), hbounded _ (List.getElem_mem hi), nofun⟩

end Holds

end Compressed

namespace Pattern

theorem lanes_restrict (p : Pattern) (keep : Nat → Bool) :
    (p.restrict keep).lanes = (List.range p.rows).map fun i => if keep i then p.lane i else [] := by
  refine List.ext_getElem (by simp [restrict, rows]) fun i hi _ => ?_
  have hi : i < p.lanes.length := by simpa [restrict] using hi
  simp [restrict, lane, hi]

/-- The compressed rows are those of the restricted pattern. -/
theorem holds_compress (p : Pattern) (keep : Nat → Bool) :
    Compressed.Holds (p.compress keep) (p.restrict keep).lanes := by
  have hfold := Compressed.holds_empty.foldl_push (p.restrict keep).lanes
  rwa [List.nil_append, lanes_restrict, List.foldl_map, ← lanes_restrict] at hfold

/-- The check of compressed rows succeeds, with the restricted pattern. -/
theorem ofCompressed_compress (p : Pattern) (keep : Nat → Bool) :
    ofCompressed p.rows p.columns (p.compress keep) = .ok (p.restrict keep) := by
  have hholds := p.holds_compress keep
  have hrows : (p.restrict keep).lanes.length = p.rows := p.rows_restrict keep
  have hnone : (p.compress keep).defect? p.rows p.columns = none :=
    hrows ▸ hholds.defect?_eq_none (p.restrict keep).sorted (p.restrict keep).bounded
  have hlanes : (List.range p.rows).map (p.compress keep).lane = (p.restrict keep).lanes := by
    refine List.ext_getElem (by simp [hrows]) fun i _ hi => ?_
    rw [List.getElem_map, List.getElem_range, hholds.lane_eq hi]
  unfold ofCompressed
  split
  · rename_i hdefect
    exact nomatch hnone.symm.trans hdefect
  · simp only [hlanes]
    rfl

end Pattern

/-- A rank obtains the rows that it owns, whatever the pattern is and whichever rows these are. -/
theorem Description.ownedRows_eq {n : Nat} (pattern : Pattern) (p : Partition n) :
    ownedRows pattern p = .ok (pattern.restrict p.owns) := by
  rw [ownedRows, Pattern.ofCompressed_compress]

end DualHessian
