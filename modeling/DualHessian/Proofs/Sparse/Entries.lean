import DualHessian.Distributed.Matrix
import Mathlib.Data.List.FinRange
import Mathlib.Data.List.Induction

/-!
# Entries of collected matrices

A matrix collected from entries stores at every position the sum of the values given for it, added
from the first to the last. No law of addition is used.

* `valuesAt` are the values given for a position, `addUp?` is their sum.
* `SparseMatrix.stored?_ofEntries` and `RowMatrix.get?_ofEntries` say what is stored and what is
  read.
* `SparseMatrix.valuesAt_entries` says that a matrix lists what it stores, once for each position,
  and `SparseMatrix.pairwise_entries` in which order.
-/

namespace DualHessian

variable {α : Type}

/-- The sum of values, added from the first to the last; nothing, if there are no values. -/
def addUp? [Add α] : List α → Option α
  | [] => none
  | x :: xs => some (xs.foldl (· + ·) x)

/-- A further number is added to the sum so far. -/
theorem addUp?_append [Add α] (xs : List α) (x : α) :
    addUp? (xs ++ [x]) = some ((addUp? xs).elim x (· + x)) := by
  cases xs with
  | nil => rfl
  | cons y ys =>
    show some ((ys ++ [x]).foldl (· + ·) y) = some (ys.foldl (· + ·) y + x)
    rw [List.foldl_append]
    rfl

/-- There is a sum if there is something to add. -/
theorem isSome_addUp? [Add α] (xs : List α) : (addUp? xs).isSome = true ↔ xs ≠ [] := by
  cases xs with
  | nil => simp [addUp?]
  | cons x xs => simp [addUp?]

/-- The first entry stands in an earlier row, or in the same one further to the left. -/
def Entry.Before (e f : Entry α) : Prop :=
  e.row < f.row ∨ e.row = f.row ∧ e.column < f.column

/-- The values given for a position, in their order. -/
def valuesAt (entries : List (Entry α)) (i j : Nat) : List α :=
  (entries.filter (Entry.isAt i j)).map (·.value)

/-- Without entries there are no values. -/
@[simp] theorem valuesAt_nil (i j : Nat) : valuesAt ([] : List (Entry α)) i j = [] := rfl

/-- Entries that come later have their values later. -/
theorem valuesAt_append (entries more : List (Entry α)) (i j : Nat) :
    valuesAt (entries ++ more) i j = valuesAt entries i j ++ valuesAt more i j := by
  simp [valuesAt]

/-- A position has values if an entry is there. -/
theorem valuesAt_ne_nil {entries : List (Entry α)} {i j : Nat} :
    valuesAt entries i j ≠ [] ↔ ∃ e ∈ entries, e.row = i ∧ e.column = j := by
  simp [valuesAt, Entry.isAt]

/-- Keeping some rows changes nothing in a row that is kept, and leaves nothing in any other. -/
theorem valuesAt_filter (keep : Nat → Bool) (entries : List (Entry α)) (i j : Nat) :
    valuesAt (entries.filter fun e => keep e.row) i j =
      if keep i then valuesAt entries i j else [] := by
  have hat : ∀ e ∈ entries, (e.isAt i j && keep e.row) = (keep i && e.isAt i j) := by
    intro e _
    by_cases hrow : e.row = i
    · rw [hrow, Bool.and_comm]
    · rw [Entry.isAt, beq_false_of_ne hrow, Bool.false_and, Bool.false_and, Bool.and_false]
  rw [valuesAt, List.filter_filter, List.filter_congr hat]
  cases keep i with
  | true => rfl
  | false => simp

/-- The values that a group gives for a position, rank by rank. -/
theorem valuesAt_flatten_ofFn {size : Nat} (lists : Fin size → List (Entry α)) (i j : Nat) :
    valuesAt (List.ofFn lists).flatten i j =
      (List.finRange size).flatMap fun s => valuesAt (lists s) i j := by
  rw [List.ofFn_eq_map, valuesAt, List.filter_flatten, List.map_flatten, List.map_map,
    List.map_map]
  rfl

/-- Changing values leaves them where they are. -/
theorem valuesAt_map {β : Type} (f : α → β) (entries : List (Entry α)) (i j : Nat) :
    valuesAt (entries.map (Entry.map f)) i j = (valuesAt entries i j).map f := by
  unfold valuesAt
  rw [List.filter_map, List.map_map, List.map_map]
  rfl

/-! ## Rows -/

private theorem lookup_eq_none_of_lt {lane : List (Nat × α)} {j : Nat}
    (h : ∀ e ∈ lane, j < e.1) : lane.lookup j = none := by
  rw [List.lookup_eq_none_iff]
  intro e he
  have hlt := h e he
  simp
  omega

/-- What a row stores after an addition. -/
theorem lookup_addInto [Add α] {lane : List (Nat × α)} (h : LaneSorted lane) (column : Nat)
    (value : α) (j : Nat) :
    (addInto column value lane).lookup j =
      if j = column then some ((lane.lookup column).elim value (· + value))
      else lane.lookup j := by
  induction lane with
  | nil =>
    by_cases hj : j = column
    · simp [addInto, hj]
    · simp [addInto, hj, List.lookup_cons, beq_false_of_ne hj]
  | cons e rest ih =>
    obtain ⟨k, x⟩ := e
    obtain ⟨hk, hrest⟩ := List.pairwise_cons.1 h
    have ih := ih hrest
    rw [addInto]
    split
    · rename_i hlt
      -- The column comes before all others, so nothing is stored in it yet.
      have hnone : ((k, x) :: rest).lookup column = none := by
        apply lookup_eq_none_of_lt
        intro e he
        rcases List.mem_cons.1 he with rfl | he
        · exact hlt
        · exact Nat.lt_trans hlt (hk e he)
      by_cases hj : j = column
      · rw [hnone, hj, if_pos rfl, List.lookup_cons, beq_self_eq_true]
        rfl
      · rw [if_neg hj, List.lookup_cons, beq_false_of_ne hj]
    · split
      · -- The column comes later.
        rename_i hlt
        have hne : (column == k) = false := beq_false_of_ne (by omega)
        rw [List.lookup_cons, ih, List.lookup_cons (k := k), hne]
        by_cases hj : j = column
        · rw [hj, hne, if_pos rfl, if_pos rfl]
        · rw [if_neg hj, if_neg hj, List.lookup_cons]
      · obtain rfl : column = k := by omega
        by_cases hj : j = column
        · rw [hj, if_pos rfl, List.lookup_cons, beq_self_eq_true, List.lookup_cons,
            beq_self_eq_true]
          rfl
        · rw [if_neg hj, List.lookup_cons, List.lookup_cons, beq_false_of_ne hj]

/-- What a collected row stores. -/
theorem lookup_collect [Add α] (values : List (Nat × α)) (j : Nat) :
    (collect values).lookup j = addUp? ((values.filter (·.1 == j)).map (·.2)) := by
  -- The last value is added to a row that is collected from those before it.
  induction values using List.reverseRecOn with
  | nil => rfl
  | append_singleton before e ih =>
    have hlast : collect (before ++ [e]) = addInto e.1 e.2 (collect before) := by
      rw [collect, List.foldl_append]
      rfl
    rw [hlast, lookup_addInto (collect_sorted before), List.filter_append]
    by_cases hj : j = e.1
    · subst hj
      rw [if_pos rfl, ih]
      simp [addUp?_append]
    · have hne : (e.1 == j) = false := beq_false_of_ne (Ne.symm hj)
      rw [if_neg hj, ih]
      simp [hne]

/-- A sorted lane has at most one value in a column, the one it looks up. -/
theorem filter_column {lane : List (Nat × α)} (h : LaneSorted lane) (j : Nat) :
    (lane.filter (·.1 == j)).map (·.2) = (lane.lookup j).toList := by
  induction lane with
  | nil => rfl
  | cons e rest ih =>
    obtain ⟨k, x⟩ := e
    obtain ⟨hk, hrest⟩ := List.pairwise_cons.1 h
    by_cases hj : j = k
    · subst hj
      have hnone : rest.filter (·.1 == j) = [] := by
        apply List.filter_eq_nil_iff.2
        intro e he
        have hlt : j < e.1 := hk e he
        simp only [beq_iff_eq]
        omega
      rw [List.filter_cons_of_pos (by simp), hnone, List.lookup_cons, beq_self_eq_true]
      rfl
    · rw [List.filter_cons_of_neg (by simpa using Ne.symm hj), ih hrest, List.lookup_cons,
        beq_false_of_ne hj]

/-! ## Matrices -/

namespace SparseMatrix

/-- What a matrix stores that is made of entries. -/
theorem stored?_ofEntries [Add α] (rows columns : Nat) (entries : List (Entry α)) (i j : Nat) :
    (ofEntries rows columns entries).stored? i j =
      if i < rows ∧ j < columns then addUp? (valuesAt entries i j) else none := by
  rw [stored?, lane_ofEntries]
  by_cases hi : i < rows
  · rw [if_pos hi, laneOf, lookup_collect, List.filter_map, List.filter_filter, List.map_map]
    by_cases hj : j < columns
    · -- The row is chosen first and the column then; together that is the position.
      have hat : ∀ e ∈ entries, (((fun p : Nat × α => p.1 == j) ∘ fun e : Entry α =>
          (e.column, e.value)) e && (e.row == i && decide (e.column < columns))) =
            e.isAt i j := by
        intro e _
        by_cases hcolumn : e.column = j
        · simp [Entry.isAt, hcolumn, hj]
        · have hne : (e.column == j) = false := beq_false_of_ne hcolumn
          simp [Entry.isAt, hne]
      rw [if_pos ⟨hi, hj⟩, List.filter_congr hat]
      rfl
    -- Entries beyond the last column are not collected.
    · have hnone : entries.filter (fun e => ((fun p : Nat × α => p.1 == j) ∘ fun e : Entry α =>
          (e.column, e.value)) e && (e.row == i && decide (e.column < columns))) = [] := by
        apply List.filter_eq_nil_iff.2
        intro e _
        by_cases hcolumn : e.column = j
        · simp [hcolumn, hj]
        · simp [hcolumn]
      rw [if_neg fun h => hj h.2, hnone]
      rfl
  · rw [if_neg hi, if_neg fun h => hi h.1]
    rfl

-- The induction is on the rows, counted from any first one.
private theorem filter_zipIdx (lanes : List (List (Nat × α))) (first i j : Nat) :
    (((lanes.zipIdx first).flatMap fun (lane, k) => lane.map fun e => Entry.mk k e.1 e.2).filter
        (Entry.isAt i j)).map (·.value) =
      if first ≤ i then ((lanes.getD (i - first) []).filter (·.1 == j)).map (·.2) else [] := by
  induction lanes generalizing first with
  | nil => simp
  | cons lane lanes ih =>
    rw [List.zipIdx_cons, List.flatMap_cons, List.filter_append, List.map_append, ih,
      List.filter_map, List.map_map]
    rcases Nat.lt_trichotomy first i with hlt | rfl | hlt
    · -- The row comes later.
      have hnone : lane.filter (Entry.isAt i j ∘ fun e => Entry.mk first e.1 e.2) = [] := by
        apply List.filter_eq_nil_iff.2
        intro e _
        simp [Entry.isAt, Nat.ne_of_lt hlt]
      have hindex : i - first = i - (first + 1) + 1 := by omega
      rw [hnone, if_pos (Nat.succ_le_of_lt hlt), if_pos (Nat.le_of_lt hlt), hindex,
        List.getD_cons_succ]
      rfl
    · have hat : (Entry.isAt first j ∘ fun e : Nat × α => Entry.mk first e.1 e.2) =
          fun e => e.1 == j := by
        ext e
        simp [Entry.isAt]
      rw [hat, if_neg (by omega), if_pos (Nat.le_refl first), Nat.sub_self, List.getD_cons_zero,
        List.append_nil]
      rfl
    · -- It came before all that are left.
      have hnone : lane.filter (Entry.isAt i j ∘ fun e => Entry.mk first e.1 e.2) = [] := by
        apply List.filter_eq_nil_iff.2
        intro e _
        simp [Entry.isAt, Nat.ne_of_gt hlt]
      rw [hnone, if_neg (by omega), if_neg (by omega)]
      rfl

/-- A row outside the matrix has nothing stored. -/
theorem lane_eq_nil_or_mem (A : SparseMatrix α) (i : Nat) : A.lane i = [] ∨ A.lane i ∈ A.lanes := by
  unfold lane
  by_cases hi : i < A.lanes.length
  · rw [List.getD_eq_getElem?_getD, List.getElem?_eq_getElem hi]
    exact .inr (List.getElem_mem hi)
  · rw [List.getD_eq_getElem?_getD, List.getElem?_eq_none (Nat.le_of_not_lt hi)]
    exact .inl rfl

/-- Every lane of a matrix is sorted. -/
theorem sorted_lane (A : SparseMatrix α) (i : Nat) : LaneSorted (A.lane i) := by
  rcases A.lane_eq_nil_or_mem i with h | h
  · rw [h]
    exact .nil
  · exact A.sorted _ h

/-- The columns of a lane are columns of the matrix. -/
theorem bounded_lane {A : SparseMatrix α} {i : Nat} {e : Nat × α} (he : e ∈ A.lane i) :
    e.1 < A.columns := by
  rcases A.lane_eq_nil_or_mem i with h | h
  · rw [h] at he
    cases he
  · exact A.bounded _ h e he

/-- The lanes of a matrix in the order of its rows. -/
theorem lanes_eq (A : SparseMatrix α) : A.lanes = (List.range A.rows).map A.lane := by
  apply List.ext_getElem
  · rw [List.length_map, List.length_range, rows]
  · intro i hi _
    rw [List.getElem_map, List.getElem_range, lane, List.getD_eq_getElem?_getD,
      List.getElem?_eq_getElem hi, Option.getD_some]

/-- A matrix lists what it stores at a position, once. -/
theorem valuesAt_entries (A : SparseMatrix α) (i j : Nat) :
    valuesAt A.entries i j = (A.stored? i j).toList := by
  have hentries := filter_zipIdx A.lanes 0 i j
  rw [if_pos (Nat.zero_le i), Nat.sub_zero] at hentries
  exact hentries.trans (filter_column (A.sorted_lane i) j)

/-- All entries of a matrix are inside of it. -/
theorem isInside_of_mem_entries {A : SparseMatrix α} {e : Entry α} (he : e ∈ A.entries) :
    e.isInside A.rows A.columns = true := by
  obtain ⟨⟨lane, i⟩, hlane, he⟩ := List.mem_flatMap.1 he
  obtain ⟨entry, hentry, rfl⟩ := List.mem_map.1 he
  obtain ⟨_, hi, hget⟩ := List.mem_zipIdx hlane
  have hrow : i < A.rows := by
    show i < A.lanes.length
    omega
  have hcolumn : entry.1 < A.columns := A.bounded lane (hget ▸ List.getElem_mem _) entry hentry
  simp [Entry.isInside, hrow, hcolumn]

/-- Entries are listed row by row, the columns ascending. -/
theorem pairwise_entries (A : SparseMatrix α) : A.entries.Pairwise Entry.Before := by
  refine List.pairwise_flatMap.2 ⟨?_, ?_⟩
  · rintro ⟨lane, i⟩ hlane
    obtain ⟨_, hi, hget⟩ := List.mem_zipIdx hlane
    have hsorted : LaneSorted lane := A.sorted lane (hget ▸ List.getElem_mem _)
    exact List.pairwise_map.2 (hsorted.imp fun hlt => .inr ⟨rfl, hlt⟩)
  · -- Lanes are numbered in their order.
    have hrows : (A.lanes.zipIdx.map (·.2)).Pairwise (· < ·) := by
      rw [List.zipIdx_map_snd]
      exact List.pairwise_lt_range'
    refine (List.pairwise_map.1 hrows).imp fun hlt e he f hf => ?_
    obtain ⟨_, _, rfl⟩ := List.mem_map.1 he
    obtain ⟨_, _, rfl⟩ := List.mem_map.1 hf
    exact .inl hlt

/-- The values of the entries are those stored, in the same order. -/
theorem map_value_entries (A : SparseMatrix α) : A.entries.map (·.value) = A.values := by
  have hlanes : A.lanes = A.lanes.zipIdx.map (·.1) := (List.zipIdx_map_fst 0 A.lanes).symm
  rw [values, hlanes, List.flatMap_map, entries, List.map_flatMap]
  refine congrArg (List.flatMap · _) (funext fun e => ?_)
  rw [List.map_map]
  rfl

/-- Every entry is stored at its position. -/
theorem stored?_of_mem_entries {A : SparseMatrix α} {e : Entry α} (he : e ∈ A.entries) :
    A.stored? e.row e.column = some e.value := by
  have hat : e.isAt e.row e.column = true := by simp [Entry.isAt]
  have hmem : e.value ∈ valuesAt A.entries e.row e.column :=
    List.mem_map.2 ⟨e, List.mem_filter.2 ⟨he, hat⟩, rfl⟩
  rw [valuesAt_entries] at hmem
  exact Option.mem_toList.1 hmem

/-- A row is determined by what is stored in it. -/
theorem lane_congr {A B : SparseMatrix α} {i : Nat} (h : ∀ j, A.stored? i j = B.stored? i j) :
    A.lane i = B.lane i := by
  have hmem : ∀ (C : SparseMatrix α) (e : Nat × α), e ∈ C.lane i ↔ C.stored? i e.1 = some e.2 := by
    intro C e
    have hcolumn := filter_column (C.sorted_lane i) e.1
    have hvalue : e.2 ∈ (C.stored? i e.1).toList ↔ C.stored? i e.1 = some e.2 := Option.mem_toList
    rw [← hvalue, stored?, ← hcolumn, List.mem_map]
    constructor
    · exact fun he => ⟨e, List.mem_filter.2 ⟨he, beq_self_eq_true _⟩, rfl⟩
    · rintro ⟨f, hf, hfe⟩
      obtain ⟨hlane, hkey⟩ := List.mem_filter.1 hf
      obtain rfl : f = e := Prod.ext (beq_iff_eq.1 hkey) hfe
      exact hlane
  have hnodup : ∀ C : SparseMatrix α, (C.lane i).Nodup := fun C =>
    (C.sorted_lane i).imp fun hlt heq => Nat.ne_of_lt hlt (congrArg Prod.fst heq)
  -- Both rows ascend, and they have the same entries.
  refine List.Perm.eq_of_pairwise (fun e f _ _ hef hfe => absurd hef (Nat.lt_asymm hfe))
    (A.sorted_lane i) (B.sorted_lane i) ?_
  refine (List.perm_ext_iff_of_nodup (hnodup A) (hnodup B)).2 fun e => ?_
  rw [hmem A, hmem B, h]

/-- Nothing is stored beyond the last column. -/
theorem stored?_of_le {A : SparseMatrix α} {j : Nat} (hj : A.columns ≤ j) (i : Nat) :
    A.stored? i j = none := by
  rw [stored?, List.lookup_eq_none_iff]
  intro e he
  have hlt : e.1 < A.columns := bounded_lane he
  simp
  omega

end SparseMatrix

namespace RowMatrix

variable {n : Nat}

/-- The owned rows of a matrix are determined by what is stored. -/
theorem ext_part {p : Partition n} {A B : RowMatrix α p} (h : A.part = B.part) : A = B := by
  cases A
  cases B
  cases h
  rfl

/-- A rank lists entries of its own rows only. -/
theorem mem_owned_of_mem_entries {p : Partition n} {A : RowMatrix α p} {e : Entry α}
    (he : e ∈ A.part.entries) : e.row ∈ p.owned ∧ e.column < A.columns := by
  have hstored := SparseMatrix.stored?_of_mem_entries he
  have hinside := SparseMatrix.isInside_of_mem_entries he
  rw [Entry.isInside, Bool.and_eq_true, decide_eq_true_eq, decide_eq_true_eq] at hinside
  refine ⟨?_, hinside.2⟩
  by_contra hrow
  rw [SparseMatrix.stored?, A.lane_part e.row hrow] at hstored
  cases hstored

/-- A rank stores nothing in rows it does not own. -/
theorem stored?_of_not_mem {p : Partition n} (A : RowMatrix α p) {i : Nat} (hi : i ∉ p.owned)
    (j : Nat) : A.part.stored? i j = none := by
  rw [SparseMatrix.stored?, A.lane_part i hi]
  rfl

/-- What is read in an owned row is what is stored there, or else zero. -/
theorem get?_eq_some_iff [Zero α] {p : Partition n} {A : RowMatrix α p} {i j : Nat} {x : α} :
    A.get? i j = some x ↔
      (i ∈ p.owned ∧ j < A.columns) ∧ (A.part.stored? i j).getD 0 = x := by
  rw [get?]
  simp only [Bool.and_eq_true, Partition.owns_iff, decide_eq_true_eq]
  split
  · rename_i hinside
    rw [Option.some_inj]
    exact ⟨fun h => ⟨hinside, h⟩, fun h => h.2⟩
  · rename_i hinside
    exact iff_of_false (Option.some_ne_none x).symm fun h => hinside h.1

/-- Restricting a matrix to some rows keeps its columns. -/
theorem columns_of_restrict {p : Partition n} {A : RowMatrix α p} {H : SparseMatrix α}
    {keep : Nat → Bool} (h : A.part = H.restrict keep) : A.columns = H.columns := by
  rw [columns, h, SparseMatrix.columns_restrict]

/-- What is read from the owned rows of a matrix that every rank knows in full. -/
theorem get?_of_restrict [Zero α] {p : Partition n} {A : RowMatrix α p} {H : SparseMatrix α}
    (h : A.part = H.restrict p.owns) {i j : Nat} (hi : i ∈ p.owned) (hj : j < H.columns) :
    A.get? i j = some ((H.stored? i j).getD 0) := by
  refine get?_eq_some_iff.2 ⟨⟨hi, (columns_of_restrict h).symm ▸ hj⟩, ?_⟩
  rw [h, SparseMatrix.stored?, SparseMatrix.lane_restrict, if_pos (Partition.owns_iff.2 hi)]
  rfl

/-- What a rank stores of a matrix that is made of entries. -/
theorem stored?_ofEntries [Add α] (p : Partition n) (columns : Nat) (entries : List (Entry α))
    (i j : Nat) :
    (ofEntries p columns entries).part.stored? i j =
      if i ∈ p.owned ∧ j < columns then addUp? (valuesAt entries i j) else none := by
  rw [ofEntries, SparseMatrix.stored?_ofEntries, valuesAt, List.filter_filter]
  by_cases hi : i ∈ p.owned
  · -- Choosing the rows that are owned makes no difference here.
    have hat : ∀ e ∈ entries, (e.isAt i j && p.owns e.row) = e.isAt i j := by
      intro e _
      by_cases hrow : e.row = i
      · simp [hrow, Partition.owns_iff.2 hi]
      · simp [Entry.isAt, hrow]
    rw [List.filter_congr hat]
    simp only [p.lt_of_mem_owned hi, hi, true_and]
    rfl
  · -- Entries of this row are left out.
    have hnone : entries.filter (fun e => e.isAt i j && p.owns e.row) = [] := by
      apply List.filter_eq_nil_iff.2
      intro e _
      by_cases hrow : e.row = i
      · simp [hrow, hi]
      · simp [Entry.isAt, hrow]
    rw [hnone, if_neg fun h : i ∈ p.owned ∧ j < columns => hi h.1]
    exact ite_self _

/-- An entry of an own row goes into the sum that is stored at its position. -/
theorem exists_sum_of_mem [Add α] {p : Partition n} {columns : Nat} {entries : List (Entry α)}
    {e : Entry α} (he : e ∈ entries) (hinside : e.row ∈ p.owned ∧ e.column < columns) :
    ∃ s ∈ (ofEntries p columns entries).part.entries, ∃ xs,
      addUp? xs = some s.value ∧ e.value ∈ xs := by
  have hat : e.isAt e.row e.column = true := by simp [Entry.isAt]
  have hmem : e.value ∈ valuesAt entries e.row e.column :=
    List.mem_map.2 ⟨e, List.mem_filter.2 ⟨he, hat⟩, rfl⟩
  obtain ⟨x, hx⟩ : ∃ x, addUp? (valuesAt entries e.row e.column) = some x := by
    cases hvalues : valuesAt entries e.row e.column with
    | nil =>
      rw [hvalues] at hmem
      cases hmem
    | cons y ys => exact ⟨_, rfl⟩
  have hstored := stored?_ofEntries p columns entries e.row e.column
  rw [if_pos hinside, hx] at hstored
  have hlisted : x ∈ valuesAt (ofEntries p columns entries).part.entries e.row e.column := by
    rw [SparseMatrix.valuesAt_entries, hstored]
    exact List.mem_singleton.2 rfl
  obtain ⟨s, hs, rfl⟩ := List.mem_map.1 hlisted
  exact ⟨s, (List.mem_filter.1 hs).1, _, hx, hmem⟩

/-- What a rank reads from a matrix that is made of entries. -/
theorem get?_ofEntries [Add α] [Zero α] (p : Partition n) (columns : Nat)
    (entries : List (Entry α)) (i j : Nat) :
    (ofEntries p columns entries).get? i j =
      if i ∈ p.owned ∧ j < columns then some ((addUp? (valuesAt entries i j)).getD 0)
      else none := by
  rw [get?, stored?_ofEntries]
  have hcolumns : (ofEntries p columns entries).columns = columns := rfl
  simp only [hcolumns, Bool.and_eq_true, Partition.owns_iff, decide_eq_true_eq]
  split
  · rfl
  · rfl

end RowMatrix

end DualHessian
