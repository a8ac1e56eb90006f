import DualHessian.Dump.Table
import DualHessian.Proofs.Decimal.Double
import DualHessian.Proofs.Numbers.Binary64

/-!
# The columns of a table

Where the entries of a table stand. Every entry is aligned to the right in a column of
`7 + digits` characters and followed by a blank. A column has room for the sign of a number or for a
third digit of its exponent, but not for both: `exceeds` tells the numbers that take one character
more, and `text_columns` gives the length of every line, which is the same for all rows exactly as
far as they have the same number of such entries.

The digits are a machine word, and so is the width of a column. `HasTable` tells the matrices that
have a table also for the words to which `7` cannot be added.
-/

namespace DualHessian.Table

open Float.Model Rounding Binary64

variable {x : Float} {s : UnpackedFloat.Sign} {m : Nat} {e : Int} {hm : 0 < m}

/-! ## Entries -/

/-- Both zeros compare as equal to zero. -/
theorem eq_zero_iff (x : Float) : (x == 0) = true ↔ ∃ s, partsOf x = .zero s := isZero_iff

/-- Both zeros are written as a bare `0`. -/
theorem entry_of_zero (digits : Nat) (hx : partsOf x = .zero s) : entry digits x = ['0'] :=
  if_pos ((eq_zero_iff x).2 ⟨s, hx⟩)

/-- All else is written in scientific notation. -/
theorem entry_of_ne_zero (digits : Nat) (hx : ∀ s, partsOf x ≠ .zero s) :
    entry digits x = Double.scientific digits x :=
  if_neg fun h => ((eq_zero_iff x).1 h).elim hx

/-- A finite number is its sign, its mantissa, `e` and its signed exponent. -/
theorem entry_of_finite (digits : Nat) (hx : partsOf x = .finite s m e hm) :
    entry digits x = Double.signText s ++ (Double.rounded digits m e).mantissa ++
      'e' :: ExponentStyle.signed.text (Double.rounded digits m e).exponent := by
  rw [entry_of_ne_zero digits (by simp [hx]), Double.scientific_of_finite digits hx]

/-- Infinities are written by name. -/
theorem entry_of_infinity (digits : Nat) (hx : partsOf x = .infinity s) :
    entry digits x = Double.signText s ++ ['i', 'n', 'f'] := by
  rw [entry_of_ne_zero digits (by simp [hx]), Double.scientific_of_infinity digits hx]

/-- What is not a number is written by name. -/
theorem entry_of_notANumber (digits : Nat) (hx : partsOf x = .notANumber) :
    entry digits x = ['N', 'a', 'N'] := by
  rw [entry_of_ne_zero digits (by simp [hx]), Double.scientific_of_notANumber digits hx]

/-- An entry does not contain what divides entries and lines. -/
theorem not_mem_entry {c : Char} (hc : c = ' ' ∨ c = '\n') (digits : Nat) (x : Float) :
    c ∉ entry digits x := by
  intro h
  -- Words are looked through; the text of a finite number has letters of four kinds.
  rcases hx : partsOf x with s | _ | s | ⟨s, m, e, hm⟩
  case infinity =>
    rw [entry_of_infinity digits hx] at h
    rcases hc with rfl | rfl <;> cases s <;> exact absurd h (by decide)
  case notANumber =>
    rw [entry_of_notANumber digits hx] at h
    rcases hc with rfl | rfl <;> exact absurd h (by decide)
  case zero =>
    rw [entry_of_zero digits hx] at h
    rcases hc with rfl | rfl <;> exact absurd h (by decide)
  case finite =>
    rw [entry_of_finite digits hx, List.mem_append, List.mem_append, List.mem_cons] at h
    rcases h with (hsign | hmantissa) | rfl | hexponent
    · rcases hc with rfl | rfl <;> cases s <;> exact absurd hsign (by decide)
    · have hdigit := Scientific.mem_mantissa hmantissa
      rcases hc with rfl | rfl <;> exact absurd hdigit (by decide)
    · exact absurd hc (by decide)
    · have hdigit := ExponentStyle.mem_text hexponent
      rcases hc with rfl | rfl <;> exact absurd hdigit (by decide)

/-! ## Widths -/

/-- Whether the positive number `m · 2 ^ e` has an exponent of three digits after rounding to
`digits` fraction digits. -/
def longExponent (digits m : Nat) (e : Int) : Bool :=
  decide (valueOf m e < Scientific.carryPoint digits (-100)) ||
    decide (Scientific.carryPoint digits 99 ≤ valueOf m e)

/-- Whether an entry does not fit into its column: the number is negative and has fraction digits
and an exponent of three digits. -/
def exceeds (digits : Nat) (x : Float) : Bool :=
  match partsOf x with
  | .finite .negative m e _ => decide (digits ≠ 0) && longExponent digits m e
  | _ => false

/-- No positive entry is too wide for its column. -/
theorem exceeds_of_positive (digits : Nat) (hx : partsOf x = .finite .positive m e hm) :
    exceeds digits x = false := by
  rw [exceeds, hx]

/-- A negative entry with fraction digits is too wide by one if its exponent is long. -/
theorem exceeds_of_negative (digits : Nat) (hx : partsOf x = .finite .negative m e hm) :
    (exceeds digits x).toNat = if digits = 0 then 0 else (longExponent digits m e).toNat := by
  have hexceeds : exceeds digits x = (decide (digits ≠ 0) && longExponent digits m e) := by
    rw [exceeds, hx]
  rw [hexceeds]
  split
  next hzero => simp [hzero]
  next hpos => simp [hpos]

/-- An exponent is long if it has three digits. -/
theorem longExponent_iff (digits : Nat) (hm : 0 < m) (e : Int) :
    longExponent digits m e = true ↔ 100 ≤ (Double.rounded digits m e).exponent.natAbs := by
  have hlow := Double.lt_exponent_rounded_iff digits hm e (-100)
  have hhigh := Double.lt_exponent_rounded_iff digits hm e 99
  rw [longExponent, Bool.or_eq_true, decide_eq_true_iff, decide_eq_true_iff, ← not_le, ← hlow,
    ← hhigh]
  omega

/-- The exponent of a double takes three characters, or four if it has three digits. -/
theorem length_exponent (digits : Nat) (hx : partsOf x = .finite s m e hm) :
    (ExponentStyle.signed.text (Double.rounded digits m e).exponent).length =
      3 + (longExponent digits m e).toNat := by
  have hthree : decimalLength (Double.rounded digits m e).exponent.natAbs ≤ 3 :=
    (decimalLength_le_iff (by decide)).2 (Double.natAbs_exponent_rounded_lt digits hx)
  have htwo : decimalLength (Double.rounded digits m e).exponent.natAbs ≤ 2 ↔
      (Double.rounded digits m e).exponent.natAbs < 10 ^ 2 :=
    decimalLength_le_iff (by decide)
  have hlong := longExponent_iff digits hm e
  rw [ExponentStyle.length_signed_text]
  -- Two digits are written in any case, so only a third one takes more room.
  cases h : longExponent digits m e with
  | false =>
    rw [h] at hlong
    have hshort := htwo.2 (not_le.1 fun hle => Bool.false_ne_true (hlong.2 hle))
    rw [Bool.toNat_false]
    omega
  | true =>
    have hlarge := hlong.1 h
    have hlong : ¬decimalLength (Double.rounded digits m e).exponent.natAbs ≤ 2 := by
      rw [htwo]
      omega
    rw [Bool.toNat_true]
    omega

/-- The length of a finite number: its sign, its digits with the point if there is one, the letter
and the exponent. -/
theorem length_entry_of_finite (digits : Nat) (hx : partsOf x = .finite s m e hm) :
    (entry digits x).length = (Double.signText s).length + (if digits = 0 then 1 else digits + 2) +
      (4 + (longExponent digits m e).toNat) := by
  obtain ⟨hplaces, -, hdigits⟩ := Double.digits_rounded digits hm e
  have hmantissa : (Double.rounded digits m e).mantissa.length =
      if digits = 0 then 1 else digits + 2 := by
    rw [Scientific.length_mantissa (by rwa [hplaces]), hplaces]
  rw [entry_of_finite digits hx, List.length_append, List.length_append, List.length_cons,
    length_exponent digits hx, hmantissa]
  omega

/-- An entry fits into a column of full width, or it is one character too long. -/
theorem length_entry (digits : Nat) (x : Float) :
    max (7 + digits) (entry digits x).length = 7 + digits + (exceeds digits x).toNat := by
  rcases hx : partsOf x with s | _ | s | ⟨s, m, e, hm⟩
  case infinity =>
    rw [entry_of_infinity digits hx]
    cases s <;> simp [exceeds, hx, Double.signText] <;> omega
  case notANumber =>
    rw [entry_of_notANumber digits hx]
    simp [exceeds, hx]
    omega
  case zero =>
    rw [entry_of_zero digits hx]
    simp [exceeds, hx]
    omega
  case finite =>
    -- The leading digit, the letter and a long exponent leave room for the point or the sign. A
    -- number without fraction digits has no point, and a positive one has no sign.
    have hlong := Bool.toNat_le (longExponent digits m e)
    rw [length_entry_of_finite digits hx]
    cases s with
    | positive =>
      rw [exceeds_of_positive digits hx, Double.signText, List.length_nil, Bool.toNat_false]
      split <;> omega
    | negative =>
      rw [exceeds_of_negative digits hx, Double.signText, List.length_singleton]
      split <;> omega

/-- A cell is as wide as its column or its entry, with a blank. -/
theorem length_cell (width digits : Nat) (x : Float) :
    (cell width digits x).length = max width (entry digits x).length + 1 := by
  rw [cell, alignRight, List.length_append, List.length_append, List.length_replicate,
    List.length_singleton]
  omega

/-! ## Machine words -/

/-- A sum that is a machine word is the sum. -/
theorem add_eq_ok (overflow : Overflow) {digits : UInt64}
    (h : 7 + digits.toNat < UInt64.size) :
    overflow.add 7 digits.toNat = .ok (7 + digits).toNat := by
  rw [UInt64.toNat_add]
  exact (if_pos h).trans (congrArg Except.ok (Nat.mod_eq_of_lt h).symm)

/-- A sum that is too large stops the program. -/
theorem add_stops {digits : UInt64} (h : ¬7 + digits.toNat < UInt64.size) :
    Overflow.stops.add 7 digits.toNat = .error .sumTooLarge :=
  if_neg h

/-- A sum without its carry is the sum of machine words, whether or not it is too large. -/
theorem add_wraps (digits : UInt64) : Overflow.wraps.add 7 digits.toNat = .ok (7 + digits).toNat := by
  by_cases h : 7 + digits.toNat < UInt64.size
  · exact add_eq_ok .wraps h
  · exact (if_neg h).trans (congrArg Except.ok (UInt64.toNat_add 7 digits).symm)

/-! ## Lines -/

/-- No cell breaks the line. -/
theorem not_mem_cell (width digits : Nat) (x : Float) : '\n' ∉ cell width digits x := by
  intro h
  rw [cell, alignRight, List.mem_append, List.mem_append] at h
  rcases h with (h | h) | h
  · exact absurd (List.eq_of_mem_replicate h) (by decide)
  · exact not_mem_entry (.inr rfl) digits x h
  · exact absurd h (by decide)

/-- The lines of a table read back, one for every row. -/
theorem splitOn_lines (width digits : Nat) (rows : List (List Float)) :
    (rows.flatMap (line width digits)).splitOn '\n' =
      rows.map (fun row => row.flatMap (cell width digits)) ++ [[]] := by
  induction rows with
  | nil => rfl
  | cons row rows ih =>
    have hrow : '\n' ∉ row.flatMap (cell width digits) := fun h => by
      obtain ⟨x, -, hx⟩ := List.mem_flatMap.1 h
      exact not_mem_cell width digits x hx
    rw [List.flatMap_cons, line, List.append_assoc, List.singleton_append,
      List.splitOn_append_cons_self_of_not_mem hrow, ih]
    rfl

/-- When a matrix has a table. If the width of a column is a machine word, it must not be larger
than a field, except that a matrix without entries has no columns. If it is not, the carry has to be
lost, and then only zeros can be written. -/
def HasTable (overflow : Overflow) (digits : UInt64) (A : Dense Float) : Prop :=
  if 7 + digits.toNat < UInt64.size then
    7 + digits.toNat ≤ Double.longestField ∨ ∀ row ∈ A.rows, row = []
  else overflow = .wraps ∧ ∀ row ∈ A.rows, ∀ x ∈ row, (x == 0) = true

/-- Whether there is a table can be decided. -/
instance decidableHasTable (overflow : Overflow) (digits : UInt64) (A : Dense Float) :
    Decidable (HasTable overflow digits A) := by
  unfold HasTable
  infer_instance

/-- A cell can be written if its column is not too wide, and, unless it is a zero, its fraction is
not too long. -/
theorem fits_iff (width digits : Nat) (x : Float) : fits width digits x = true ↔
    width ≤ Double.longestField ∧ ((x == 0) = true ∨ digits ≤ Double.longestField) := by
  rw [fits, Bool.and_eq_true, Bool.or_eq_true, decide_eq_true_iff, decide_eq_true_iff]

/-- The table of a matrix whose columns have a width. -/
theorem text_of_add {overflow : Overflow} {width digits : Nat} (A : Dense Float)
    (hadd : overflow.add 7 digits = .ok width) :
    text overflow digits A =
      if A.rows.all (·.all (fits width digits)) then .ok (String.ofList (lines width digits A))
      else .error .tooManyDigits := by
  rw [text, hadd]
  rfl

/-- Where the width of a column is known, all entries can be written in it exactly if the matrix has
a table. -/
theorem all_fits_iff {overflow : Overflow} {digits : UInt64} (A : Dense Float)
    (hadd : overflow.add 7 digits.toNat = .ok (7 + digits).toNat) :
    (A.rows.all (·.all (fits (7 + digits).toNat digits.toNat))) = true ↔
      HasTable overflow digits A := by
  have hword := digits.toNat_lt
  have hsum : (7 + digits).toNat = (7 + digits.toNat) % UInt64.size := UInt64.toNat_add 7 digits
  simp only [List.all_eq_true, fits_iff, HasTable, hsum]
  split
  next hlt =>
    rw [Nat.mod_eq_of_lt hlt]
    constructor
    · intro hfits
      by_cases hwidth : 7 + digits.toNat ≤ Double.longestField
      · exact .inl hwidth
      · exact .inr fun row hrow =>
          List.eq_nil_iff_forall_not_mem.2 fun x hx => hwidth (hfits row hrow x hx).1
    · rintro (hwidth | hempty) row hrow x hx
      · exact ⟨hwidth, .inr (by omega)⟩
      · rw [hempty row hrow] at hx
        exact absurd hx List.not_mem_nil
  next hlarge =>
    -- What is left of the width is at most six, but no number has as many digits.
    have hwidth : (7 + digits.toNat) % UInt64.size ≤ Double.longestField := by
      simp only [UInt64.size, Double.longestField] at hlarge ⊢
      omega
    have hdigits : ¬digits.toNat ≤ Double.longestField := by
      simp only [UInt64.size, Double.longestField] at hlarge ⊢
      omega
    have hwraps : overflow = .wraps := by
      cases overflow with
      | stops => cases (add_stops hlarge).symm.trans hadd
      | wraps => rfl
    simp only [hwidth, hdigits, hwraps, true_and, or_false]

/-- The table of a matrix, line by line. -/
theorem text_of_hasTable {overflow : Overflow} {digits : UInt64} {A : Dense Float}
    (h : HasTable overflow digits A) :
    ∃ t, text overflow digits.toNat A = .ok t ∧ t.toList.splitOn '\n' =
      A.rows.map (fun row => row.flatMap (cell (7 + digits).toNat digits.toNat)) ++ [[]] := by
  have hadd : overflow.add 7 digits.toNat = .ok (7 + digits).toNat := by
    by_cases hlt : 7 + digits.toNat < UInt64.size
    · exact add_eq_ok overflow hlt
    · rw [HasTable, if_neg hlt] at h
      rw [h.1]
      exact add_wraps digits
  refine ⟨String.ofList (lines (7 + digits).toNat digits.toNat A), ?_, ?_⟩
  · rw [text_of_add A hadd, if_pos ((all_fits_iff A hadd).2 h)]
  · rw [String.toList_ofList]
    exact splitOn_lines _ _ A.rows

/-- Without a table, it is the sum that is too large, or the digits are too many. -/
theorem text_of_not_hasTable {overflow : Overflow} {digits : UInt64} {A : Dense Float}
    (h : ¬HasTable overflow digits A) :
    text overflow digits.toNat A = .error
      (if overflow = .stops ∧ UInt64.size ≤ 7 + digits.toNat then .sumTooLarge
        else .tooManyDigits) := by
  by_cases hstops : overflow = .stops ∧ UInt64.size ≤ 7 + digits.toNat
  · rw [if_pos hstops, text, hstops.1, add_stops (not_lt.2 hstops.2)]
    rfl
  · have hadd : overflow.add 7 digits.toNat = .ok (7 + digits).toNat := by
      cases overflow with
      | stops => exact add_eq_ok .stops (not_le.1 fun hle => hstops ⟨rfl, hle⟩)
      | wraps => exact add_wraps digits
    rw [if_neg hstops, text_of_add A hadd, if_neg fun hfits => h ((all_fits_iff A hadd).1 hfits)]

/-! ## Columns -/

/-- Whether a number takes more than its column has. A column of full width is exceeded as
`exceeds` tells; one that has lost its carry has room for a zero, unless it has no width at all. -/
def overhangs (digits : UInt64) (x : Float) : Bool :=
  if 7 + digits.toNat < UInt64.size then exceeds digits.toNat x else decide ((7 + digits).toNat = 0)

/-- A number in its column. -/
structure InColumn (digits : UInt64) (x : Float) (column : List Char) : Prop where
  /-- The entry stands at the right end, with a blank behind it. -/
  aligned : ∃ blanks, column = List.replicate blanks ' ' ++ entry digits.toNat x ++ [' ']
  /-- The column is as wide as the sum of the machine words says, followed by a blank, unless the
  entry is too long. -/
  length : column.length = (7 + digits).toNat + 1 + (overhangs digits x).toNat

/-- The line of a row. -/
structure InColumns (digits : UInt64) (row : List Float) (line : List Char) : Prop where
  /-- The line consists of columns, one for every number. -/
  columns : ∃ columns, line = columns.flatten ∧ List.Forall₂ (InColumn digits) row columns
  /-- It is as long as the columns should be, and one character longer for every entry that is too
  long. -/
  length : line.length = row.length * ((7 + digits).toNat + 1) + row.countP (overhangs digits)

/-- The column of an entry that can be written. -/
theorem inColumn_cell {digits : UInt64}
    (hx : 7 + digits.toNat < UInt64.size ∨ (x == 0) = true) :
    InColumn digits x (cell (7 + digits).toNat digits.toNat x) := by
  refine ⟨⟨_, rfl⟩, ?_⟩
  rw [length_cell, overhangs]
  split
  next hlt =>
    have hsum : (7 + digits).toNat = 7 + digits.toNat :=
      (UInt64.toNat_add 7 digits).trans (Nat.mod_eq_of_lt hlt)
    rw [hsum, length_entry]
    omega
  next hlarge =>
    obtain ⟨s, hzero⟩ := (eq_zero_iff x).1 (hx.resolve_left hlarge)
    rw [entry_of_zero _ hzero, List.length_singleton]
    by_cases hwidth : (7 + digits).toNat = 0
    · simp [hwidth]
    · rw [decide_eq_false hwidth, Bool.toNat_false]
      omega

/-- The line of a row of entries that can be written. -/
theorem inColumns_line {digits : UInt64} {row : List Float}
    (hrow : ∀ x ∈ row, 7 + digits.toNat < UInt64.size ∨ (x == 0) = true) :
    InColumns digits row (row.flatMap (cell (7 + digits).toNat digits.toNat)) := by
  have hcells : ∀ x ∈ row, InColumn digits x (cell (7 + digits).toNat digits.toNat x) :=
    fun x hx => inColumn_cell (hrow x hx)
  refine ⟨⟨row.map (cell _ _), List.flatMap_def, ?_⟩, ?_⟩
  · rw [List.forall₂_map_right_iff, List.forall₂_same]
    exact hcells
  · clear hrow
    induction row with
    | nil => simp
    | cons x row ih =>
      rw [List.forall_mem_cons] at hcells
      rw [List.flatMap_cons, List.length_append, ih hcells.2, hcells.1.length, List.length_cons,
        List.countP_cons, Nat.succ_mul]
      cases overhangs digits x <;> simp <;> omega

/-- The lines of a table consist of columns of fixed width, except that a number which exceeds its
column makes it one character wider. -/
theorem text_columns (overflow : Overflow) (digits : UInt64) (A : Dense Float) :
    if HasTable overflow digits A then
      ∃ t lines, text overflow digits.toNat A = .ok t ∧ t.toList.splitOn '\n' = lines ++ [[]] ∧
        List.Forall₂ (InColumns digits) A.rows lines
    else text overflow digits.toNat A = .error
      (if overflow = .stops ∧ UInt64.size ≤ 7 + digits.toNat then .sumTooLarge
        else .tooManyDigits) := by
  split
  next h =>
    obtain ⟨t, htext, hlines⟩ := text_of_hasTable h
    refine ⟨t, _, htext, hlines, ?_⟩
    rw [List.forall₂_map_right_iff, List.forall₂_same]
    intro row hrow
    refine inColumns_line fun x hx => ?_
    rw [HasTable] at h
    split at h
    next hlt => exact .inl hlt
    next hlarge => exact .inr (h.2 row hrow x hx)
  next h => exact text_of_not_hasTable h

/-- A negative number with an exponent of three digits takes ten characters with its blank, where
its column has nine. -/
theorem negative_entry_exceeds_column :
    ∃ t line, text .stops 1 ⟨1, [[-1e-100]]⟩ = .ok t ∧ text .wraps 1 ⟨1, [[-1e-100]]⟩ = .ok t ∧
      t.toList.splitOn '\n' = [line, []] ∧ line.length ≠ 1 * (8 + 1) := by
  have hlines : String.ofList (lines 8 1 ⟨1, [[-1e-100]]⟩) = "-1.0e-100 \n" := by
    rw [show lines 8 1 ⟨1, [[-1e-100]]⟩ = "-1.0e-100 \n".toList by decide +kernel,
      String.ofList_toList]
  have htext (overflow : Overflow) : text overflow 1 ⟨1, [[-1e-100]]⟩ = .ok "-1.0e-100 \n" := by
    have hwidth : overflow.add 7 1 = .ok 8 := if_pos (by decide)
    rw [text_of_add _ hwidth, hlines, if_pos (by decide +kernel)]
  exact ⟨"-1.0e-100 \n", "-1.0e-100 ".toList, htext .stops, htext .wraps, by decide +kernel,
    by decide +kernel⟩

end DualHessian.Table
