import DualHessian.Proofs.Dump.Columns

/-!
# Reading a table back

A table is read back by splitting its text into lines, and a line into the texts between blanks.
There are as many lines as rows and as many tokens as entries, whether or not the entries fit into
their columns (`text_tokens`), for the text of an entry contains no blank and a blank stands behind
it. The token of a finite number has the digits of the text with the exponent as it is, and an
exponent that denotes the same power of ten.
-/

namespace DualHessian.Table

open Float.Model Binary64

/-! ## Tokens -/

/-- The texts between the blanks of a line. -/
def tokens (line : List Char) : List (List Char) := (line.splitOn ' ').filter (· ≠ [])

/-- There are no tokens in an empty text. -/
theorem tokens_nil : tokens [] = [] := rfl

/-- A blank separates tokens. -/
theorem tokens_append_blank (before after : List Char) :
    tokens (before ++ ' ' :: after) = tokens before ++ tokens after := by
  have hsplit : (before ++ ' ' :: after).splitOn ' ' = before.splitOn ' ' ++ after.splitOn ' ' :=
    List.splitOnP_append_cons before after (beq_self_eq_true ' ')
  rw [tokens, hsplit, List.filter_append]
  rfl

/-- Blanks in front of a token do not matter. -/
theorem tokens_replicate_blank (n : Nat) (after : List Char) :
    tokens (List.replicate n ' ' ++ after) = tokens after := by
  induction n with
  | zero => rfl
  | succ n ih =>
    -- The text before the first blank is empty and leaves no token.
    have hfirst := tokens_append_blank [] (List.replicate n ' ' ++ after)
    rw [tokens_nil, List.nil_append, List.nil_append] at hfirst
    rw [List.replicate_succ, List.cons_append, hfirst, ih]

/-- A text without blanks is one token. -/
theorem tokens_of_not_mem {token : List Char} (hne : token ≠ []) (hblank : ' ' ∉ token) :
    tokens token = [token] := by
  rw [tokens, List.splitOn_eq_singleton hblank]
  simp [hne]

/-- No entry is empty. -/
theorem entry_ne_nil (digits : Nat) (x : Float) : entry digits x ≠ [] := by
  rcases hx : partsOf x with s | _ | s | ⟨s, m, e, hm⟩
  case infinity => simp [entry_of_infinity digits hx]
  case notANumber => simp [entry_of_notANumber digits hx]
  case zero => simp [entry_of_zero digits hx]
  case finite => simp [entry_of_finite digits hx]

/-- A cell is one token, the entry. -/
theorem tokens_cell (width digits : Nat) (x : Float) (after : List Char) :
    tokens (cell width digits x ++ after) = entry digits x :: tokens after := by
  have hcell : cell width digits x ++ after =
      List.replicate (width - (entry digits x).length) ' ' ++
        (entry digits x ++ ' ' :: after) := by
    rw [cell, alignRight, List.append_assoc, List.append_assoc, List.singleton_append]
  rw [hcell, tokens_replicate_blank, tokens_append_blank,
    tokens_of_not_mem (entry_ne_nil digits x) (not_mem_entry (.inl rfl) digits x)]
  rfl

/-- The tokens of a line are the entries of its row. -/
theorem tokens_line (width digits : Nat) (row : List Float) :
    tokens (row.flatMap (cell width digits)) = row.map (entry digits) := by
  induction row with
  | nil => rfl
  | cons x row ih => rw [List.flatMap_cons, tokens_cell, ih, List.map_cons]

/-! ## Numbers -/

/-- A text consists of digits, the letter `e` and a text that denotes an exponent. -/
structure IsPower (text mantissa exponent : List Char) (k : Int) : Prop where
  /-- The letter divides the text. -/
  parts : text = mantissa ++ 'e' :: exponent
  /-- There is no such letter before. -/
  first : 'e' ∉ mantissa
  /-- The exponent has a value. -/
  value : ExponentStyle.integer? exponent = some k

/-- A text is a sign and at least two digits. -/
def IsSigned (exponent : List Char) : Prop :=
  ∃ sign digits, exponent = sign :: digits ∧ (sign = '+' ∨ sign = '-') ∧ 2 ≤ digits.length ∧
    ∀ c ∈ digits, c.isDigit = true

/-- A token stands for a number. -/
structure Shows (digits : Nat) (x : Float) (token : List Char) : Prop where
  /-- The zeros, and no other numbers, are written as `0`. -/
  zero : token = ['0'] ↔ (x == 0) = true
  /-- What is not a number is called so. -/
  notANumber : partsOf x = .notANumber → token = ['N', 'a', 'N']
  /-- An infinity has its sign. -/
  infinity : ∀ s, partsOf x = .infinity s → token = Double.signText s ++ ['i', 'n', 'f']
  /-- Any other number has the digits and the exponent of its text in scientific notation, with the
  exponent written as a sign and at least two digits. -/
  finite : ∀ s m e hm, partsOf x = .finite s m e hm → ∃ mantissa exponent signed k,
    IsPower (Double.fixed digits x) mantissa exponent k ∧ IsPower token mantissa signed k ∧
      IsSigned signed

/-- Only the zeros are written as a bare `0`. -/
theorem entry_eq_zero_iff (digits : Nat) (x : Float) :
    entry digits x = ['0'] ↔ (x == 0) = true := by
  constructor
  · intro h
    rw [eq_zero_iff]
    rcases hx : partsOf x with s | _ | s | ⟨s, m, e, hm⟩
    case infinity =>
      rw [entry_of_infinity digits hx] at h
      cases s <;> exact absurd h (by decide)
    case notANumber =>
      rw [entry_of_notANumber digits hx] at h
      exact absurd h (by decide)
    case zero => exact ⟨s, rfl⟩
    case finite =>
      -- The letter before the exponent is not in the text of zero.
      have hletter : 'e' ∈ entry digits x := by simp [entry_of_finite digits hx]
      rw [h] at hletter
      exact absurd hletter (by decide)
  · exact fun h => if_pos h

/-- An entry stands for its number. -/
theorem shows_entry (digits : Nat) (x : Float) : Shows digits x (entry digits x) where
  zero := entry_eq_zero_iff digits x
  notANumber hx := entry_of_notANumber digits hx
  infinity s hx := entry_of_infinity digits hx
  finite s m e hm hx := by
    -- Both texts come from one rounded number and differ in the style of its exponent only.
    let r := Double.rounded digits m e
    refine ⟨Double.signText s ++ r.mantissa, ExponentStyle.plain.text r.exponent,
      ExponentStyle.signed.text r.exponent, r.exponent, ⟨Double.fixed_of_finite digits hx, ?_, ?_⟩,
      ⟨entry_of_finite digits hx, ?_, ?_⟩, ExponentStyle.signed_text r.exponent⟩
    · exact Double.e_not_mem_mantissa digits s m e
    · exact ExponentStyle.integer?_text _ _
    · exact Double.e_not_mem_mantissa digits s m e
    · exact ExponentStyle.integer?_text _ _

/-- A table is read back line by line and token by token. -/
theorem text_tokens (overflow : Overflow) (digits : UInt64) (A : Dense Float) :
    if HasTable overflow digits A then
      ∃ t lines, text overflow digits.toNat A = .ok t ∧ t.toList.splitOn '\n' = lines ++ [[]] ∧
        List.Forall₂ (fun row line => List.Forall₂ (Shows digits.toNat) row (tokens line))
          A.rows lines
    else text overflow digits.toNat A = .error
      (if overflow = .stops ∧ UInt64.size ≤ 7 + digits.toNat then .sumTooLarge
        else .tooManyDigits) := by
  split
  next h =>
    obtain ⟨t, htext, hlines⟩ := text_of_hasTable h
    refine ⟨t, _, htext, hlines, ?_⟩
    rw [List.forall₂_map_right_iff, List.forall₂_same]
    intro row _
    rw [tokens_line, List.forall₂_map_right_iff, List.forall₂_same]
    exact fun x _ => shows_entry _ x
  next h => exact text_of_not_hasTable h

/-- The column of the number zero would be wider than a field, so there is no table. -/
theorem no_table_of_wide_columns :
    ¬∃ t, text .stops 65529 ⟨1, [[0]]⟩ = .ok t ∨ text .wraps 65529 ⟨1, [[0]]⟩ = .ok t := by
  have hstops : text .stops 65529 ⟨1, [[0]]⟩ = .error .tooManyDigits := rfl
  have hwraps : text .wraps 65529 ⟨1, [[0]]⟩ = .error .tooManyDigits := rfl
  rintro ⟨t, ht | ht⟩
  · cases hstops.symm.trans ht
  · cases hwraps.symm.trans ht

end DualHessian.Table
