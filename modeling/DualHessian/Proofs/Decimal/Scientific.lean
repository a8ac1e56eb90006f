import DualHessian.Decimal.Scientific
import Mathlib.Algebra.Order.Field.Power
import Mathlib.Algebra.Order.Floor.Semifield
import Mathlib.Data.Int.Log
import Mathlib.Data.List.TakeDrop
import Mathlib.Data.List.TakeWhile
import Mathlib.Data.Nat.Cast.Order.Field
import Mathlib.Data.Rat.Floor
import Mathlib.Tactic.FieldSimp
import Mathlib.Tactic.Linarith
import Mathlib.Tactic.NormNum
import Mathlib.Tactic.Positivity
import Mathlib.Tactic.Ring

/-!
# Scientific notation

What rounding to a number of fraction digits makes of a positive fraction, and how its text reads
back.

* `decade_eq` is the power of ten of the leading digit, the logarithm rounded down.
* `Scientific.digits_round` and `Scientific.lt_exponent_round_iff` are the digits and the exponent
  of the rounded number. The exponent is the decade, unless rounding carries into one digit more,
  which it does from `Scientific.carryPoint` on.
* `ExponentStyle.integer?_text` reads the text of an exponent back, in every style, and
  `ExponentStyle.rewrite_append` writes the exponent of a number in another style.
-/

namespace DualHessian

/-! ## Digits -/

/-- The digits of a number are digit characters. -/
theorem isDigit_of_mem_decimalDigits {n : Nat} {c : Char} (h : c ∈ decimalDigits n) :
    c.isDigit = true := by
  rw [decimalDigits_eq] at h
  exact Nat.isDigit_of_mem_toDigits (by decide) (by decide) h

/-- Every number has a digit. -/
theorem decimalDigits_ne_nil (n : Nat) : decimalDigits n ≠ [] := by
  rw [decimalDigits_eq]
  exact Nat.toDigits_ne_nil

/-- Digits filled up with zeros on the left are digits still. -/
theorem isDigit_of_mem_filled {k n : Nat} {c : Char}
    (h : c ∈ List.replicate k '0' ++ decimalDigits n) : c.isDigit = true := by
  rcases List.mem_append.1 h with hzero | hdigit
  · rw [List.eq_of_mem_replicate hzero]
    rfl
  · exact isDigit_of_mem_decimalDigits hdigit

/-- A number has at most `k` digits if it lies below the `k`-th power of ten. -/
theorem decimalLength_le_iff {n k : Nat} (hk : 0 < k) : decimalLength n ≤ k ↔ n < 10 ^ k := by
  rw [decimalLength, decimalDigits_eq]
  exact Nat.length_toDigits_le_iff (by decide) hk

/-- Every number has a digit. -/
theorem decimalLength_pos (n : Nat) : 0 < decimalLength n := by
  rw [decimalLength, decimalDigits_eq]
  exact Nat.length_toDigits_pos

/-- A number is below the power of ten with as many zeros as it has digits. -/
theorem lt_pow_decimalLength (n : Nat) : n < 10 ^ decimalLength n :=
  (decimalLength_le_iff (decimalLength_pos n)).1 le_rfl

/-- It is at least the power of ten below, unless it is zero. -/
theorem pow_decimalLength_le {n : Nat} (hn : 0 < n) : 10 ^ (decimalLength n - 1) ≤ n := by
  rcases Nat.eq_zero_or_pos (decimalLength n - 1) with h | h
  · rw [h]
    exact hn
  · by_contra hlt
    have hle := (decimalLength_le_iff h).2 (not_le.1 hlt)
    omega

/-! ## Rounding -/

/-- The logarithm rounded down is the exponent of the decade that a number lies in. -/
theorem intLog_eq {x : Rat} (hx : 0 < x) {e : Int} (hlow : (10 : Rat) ^ e ≤ x)
    (hhigh : x < (10 : Rat) ^ (e + 1)) : Int.log 10 x = e := by
  have hle := (Int.zpow_le_iff_le_log (b := 10) (by decide) hx).1 hlow
  have hlt := (Int.lt_zpow_iff_log_lt (b := 10) (by decide) hx).1 hhigh
  omega

/-- A fraction of at least one lies in the decade of its quotient rounded down. -/
theorem quotient_bounds {num den : Nat} (hden : 0 < den) (hle : den ≤ num) :
    (10 : Rat) ^ ((decimalLength (num / den) : Int) - 1) ≤ (num : Rat) / den ∧
      (num : Rat) / den < (10 : Rat) ^ (decimalLength (num / den) : Int) := by
  have hq : 0 < num / den := Nat.div_pos hle hden
  have hpos := decimalLength_pos (num / den)
  have hlow : ((10 ^ (decimalLength (num / den) - 1) : Nat) : Rat) ≤ (num / den : Nat) := by
    exact_mod_cast pow_decimalLength_le hq
  have hhigh : ((num / den : Nat) : Rat) + 1 ≤ ((10 ^ decimalLength (num / den) : Nat) : Rat) := by
    exact_mod_cast lt_pow_decimalLength (num / den)
  have hfloor : ((num / den : Nat) : Rat) ≤ (num : Rat) / den := Nat.cast_div_le
  have hceil : (num : Rat) / den < ((num / den : Nat) : Rat) + 1 := by
    rw [← Nat.floor_div_eq_div (K := Rat) num den]
    exact Nat.lt_floor_add_one _
  push_cast at hlow hhigh
  have hexponent : ((decimalLength (num / den) : Int) - 1) =
      ((decimalLength (num / den) - 1 : Nat) : Int) := by
    omega
  rw [hexponent, zpow_natCast, zpow_natCast]
  exact ⟨hlow.trans hfloor, hceil.trans_le hhigh⟩

/-- For a fraction below one these are the bounds of the reciprocal, turned around. The decade is
closed at the upper end here. -/
theorem reciprocal_bounds {num den : Nat} (hnum : 0 < num) (hle : num ≤ den) :
    (10 : Rat) ^ (-(decimalLength (den / num) : Int)) < (num : Rat) / den ∧
      (num : Rat) / den ≤ (10 : Rat) ^ (1 - (decimalLength (den / num) : Int)) := by
  obtain ⟨hlow, hhigh⟩ := quotient_bounds hnum hle
  have hden : (0 : Rat) < den := Nat.cast_pos.2 (hnum.trans_le hle)
  have hnum' : (0 : Rat) < num := Nat.cast_pos.2 hnum
  rw [← inv_div (den : Rat) num, ← neg_sub, zpow_neg, zpow_neg]
  exact ⟨inv_strictAnti₀ (by positivity) hhigh, inv_anti₀ (by positivity) hlow⟩

/-- Which fractions are powers of ten, without division. -/
theorem mul_pow_eq_iff {num den k : Nat} (hden : 0 < den) (hk : 0 < k) :
    num * Nat.pow 10 (k - 1) = den ↔ (num : Rat) / den = 10 ^ (1 - (k : Int)) := by
  have hexponent : 1 - (k : Int) = -((k - 1 : Nat) : Int) := by omega
  rw [hexponent, zpow_neg, zpow_natCast, div_eq_iff (by positivity), inv_mul_eq_div,
    eq_div_iff (by positivity), Nat.pow_eq]
  exact_mod_cast Iff.rfl

/-- The power of ten of the leading digit is the logarithm rounded down. -/
theorem decade_eq {num den : Nat} (hnum : 0 < num) (hden : 0 < den) :
    decade num den = Int.log 10 ((num : Rat) / den) := by
  have hx : 0 < (num : Rat) / den := by positivity
  symm
  unfold decade
  split
  next hle =>
    obtain ⟨hlow, hhigh⟩ := quotient_bounds hden hle
    refine intLog_eq hx hlow ?_
    rwa [sub_add_cancel]
  next hlt =>
    obtain ⟨hlow, hhigh⟩ := reciprocal_bounds hnum (not_le.1 hlt).le
    have hexact : num * Nat.pow 10 (decimalLength (den / num) - 1) = den ↔ _ :=
      mul_pow_eq_iff hden (decimalLength_pos (den / num))
    -- Of its decade, which is closed above, only the upper end belongs to the next one.
    dsimp only
    split
    next heq =>
      rw [hexact] at heq
      refine intLog_eq hx heq.ge ?_
      rw [heq]
      exact zpow_lt_zpow_right₀ (by norm_num) (by omega)
    next hne =>
      rw [hexact] at hne
      refine intLog_eq hx hlow.le ?_
      rw [neg_add_eq_sub]
      exact lt_of_le_of_ne hhigh hne

/-- A power as a fraction of powers, of which one is one. -/
theorem zpow_eq_div {b : Rat} (hb : b ≠ 0) (e : Int) : b ^ e = b ^ e.toNat / b ^ (-e).toNat := by
  rw [← zpow_natCast, ← zpow_natCast, ← zpow_sub₀ hb]
  congr 1
  omega

/-- Scaling divides by the power of ten. -/
theorem scaleDown_eq (num den : Nat) (e : Int) :
    ((scaleDown num den e).1 : Rat) / (scaleDown num den e).2 = num / den / 10 ^ e := by
  simp only [scaleDown, Nat.pow_eq, Nat.cast_mul, Nat.cast_pow, Nat.cast_ofNat]
  rw [zpow_eq_div (by norm_num) e]
  field_simp

/-- Scaling keeps the denominator positive. -/
theorem scaleDown_pos {den : Nat} (num : Nat) (hden : 0 < den) (e : Int) :
    0 < (scaleDown num den e).2 :=
  Nat.mul_pos hden (Nat.pow_pos (by decide))

/-- Rounding to the nearest never goes below rounding down. -/
theorem floor_le_nearestEven (num den : Nat) : num / den ≤ nearestEven num den := by
  rcases nearestEven_eq num den with h | h <;> omega

/-- An even number is reached from the middle below it on, since ties go to the even neighbour. -/
theorem le_nearestEven_iff {num den n : Nat} (hden : 0 < den) (hn : n % 2 = 0) :
    n ≤ nearestEven num den ↔ (n : Rat) - 1 / 2 ≤ num / den := by
  have hden' : (0 : Rat) < den := by positivity
  have hsplit := Nat.div_add_mod num den
  have hmod := Nat.mod_lt num hden
  have hiff : (n : Rat) - 1 / 2 ≤ num / den ↔ 2 * n * den ≤ 2 * num + den := by
    rw [le_div_iff₀ hden', sub_mul, sub_le_iff_le_add,
      ← mul_le_mul_iff_right₀ (by norm_num : (0 : Rat) < 2)]
    have : 2 * ((num : Rat) + 1 / 2 * den) = 2 * num + den := by ring
    rw [this, ← mul_assoc]
    exact_mod_cast Iff.rfl
  rw [hiff]
  rcases Nat.lt_trichotomy n (num / den + 1) with hlt | heq | hgt
  · -- The quotient rounded down is large enough.
    have hle : n * den ≤ den * (num / den) := by
      rw [Nat.mul_comm den]
      exact Nat.mul_le_mul_right den (Nat.lt_succ_iff.1 hlt)
    refine iff_of_true ((Nat.lt_succ_iff.1 hlt).trans (floor_le_nearestEven num den)) ?_
    rw [Nat.mul_assoc]
    omega
  · -- An even number above is taken from the middle on.
    have hexpand : 2 * n * den = 2 * (den * (num / den)) + 2 * den := by
      rw [heq]
      ring
    have hround : n ≤ nearestEven num den ↔ den ≤ 2 * (num % den) := by
      simp only [nearestEven]
      split <;> omega
    rw [hround, hexpand]
    omega
  -- A number further above is never reached.
  · have hle : den * (num / den) + 2 * den ≤ n * den := by
      calc den * (num / den) + 2 * den = (num / den + 2) * den := by ring
        _ ≤ n * den := Nat.mul_le_mul_right den hgt
    refine iff_of_false ?_ ?_
    · rcases nearestEven_eq num den with h | h <;> omega
    · rw [Nat.mul_assoc]
      omega

namespace Scientific

/-- The smallest number that is rounded to `places` fraction digits with an exponent above `k`. It
is the middle between the largest number with exponent `k` and the next power of ten. -/
def carryPoint (places : Nat) (k : Int) : Rat :=
  (10 ^ (places + 1) - 1 / 2) * 10 ^ (k - (places : Int))

/-- Carrying starts between two powers of ten. -/
theorem carryPoint_mem (places : Nat) (k : Int) :
    (10 : Rat) ^ k ≤ carryPoint places k ∧ carryPoint places k ≤ 10 ^ (k + 1) := by
  have hunit : (0 : Rat) < 10 ^ (k - (places : Int)) := by positivity
  have hone : (1 : Rat) ≤ 10 ^ places := one_le_pow₀ (by norm_num)
  have hlow : (10 : Rat) ^ k = 10 ^ places * 10 ^ (k - (places : Int)) := by
    rw [← zpow_natCast, ← zpow_add₀ (by norm_num), add_sub_cancel]
  have hhigh : (10 : Rat) ^ (k + 1) = 10 ^ (places + 1) * 10 ^ (k - (places : Int)) := by
    rw [zpow_add_one₀ (by norm_num), hlow, pow_succ]
    ring
  rw [hlow, hhigh, carryPoint]
  constructor
  · refine mul_le_mul_of_nonneg_right ?_ hunit.le
    rw [pow_succ]
    linarith
  · refine mul_le_mul_of_nonneg_right ?_ hunit.le
    linarith

/-- A number in units of the last of `places` fraction digits has one digit more than these. -/
theorem scaled_bounds (places : Nat) {x : Rat} (hx : 0 < x) :
    (10 : Rat) ^ places ≤ x / 10 ^ (Int.log 10 x - places) ∧
      x / 10 ^ (Int.log 10 x - places) < 10 ^ (places + 1) := by
  have hunit : (0 : Rat) < 10 ^ (Int.log 10 x - places) := by positivity
  rw [le_div_iff₀ hunit, div_lt_iff₀ hunit, ← zpow_natCast, ← zpow_natCast,
    ← zpow_add₀ (by norm_num), ← zpow_add₀ (by norm_num), add_sub_cancel]
  have hexponent : ((places + 1 : Nat) : Int) + (Int.log 10 x - places) = Int.log 10 x + 1 := by
    omega
  rw [hexponent]
  exact ⟨Int.zpow_log_le_self (b := 10) (by decide) hx,
    Int.lt_zpow_succ_log_self (b := 10) (by decide) x⟩

/-- Rounding gives digits counted in units of the last place. From the carry point on they are one
more than there are digits for. -/
theorem round_eq (places : Nat) {num den : Nat} (hnum : 0 < num) (hden : 0 < den) :
    ∃ n : Nat, 10 ^ places ≤ n ∧ n ≤ 10 ^ (places + 1) ∧
      round places num den = carried n places (Int.log 10 ((num : Rat) / den)) ∧
      (n = 10 ^ (places + 1) ↔
        carryPoint places (Int.log 10 ((num : Rat) / den)) ≤ num / den) := by
  have hx : 0 < (num : Rat) / den := by positivity
  let e := Int.log 10 ((num : Rat) / den)
  let scaled := scaleDown num den (e - places)
  have hpos : 0 < scaled.2 := scaleDown_pos num hden _
  have hunit : (0 : Rat) < 10 ^ (e - (places : Int)) := by positivity
  have hscaled : (scaled.1 : Rat) / scaled.2 = num / den / 10 ^ (e - (places : Int)) :=
    scaleDown_eq num den _
  obtain ⟨hlow, hhigh⟩ := scaled_bounds places hx
  rw [← hscaled] at hlow hhigh
  have hdown : 10 ^ places ≤ scaled.1 / scaled.2 := by
    rw [← Nat.floor_div_eq_div (K := Rat)]
    exact Nat.le_floor (by exact_mod_cast hlow)
  have hup : scaled.1 / scaled.2 < 10 ^ (places + 1) := by
    rw [← Nat.floor_div_eq_div (K := Rat)]
    exact (Nat.floor_lt (by positivity)).2 (by exact_mod_cast hhigh)
  -- The digits are counted up to an even number, so that it is known which way a tie goes.
  have heven : 10 ^ (places + 1) % 2 = 0 := by
    rw [Nat.pow_succ]
    omega
  have hle : nearestEven scaled.1 scaled.2 ≤ 10 ^ (places + 1) := by
    rcases nearestEven_eq scaled.1 scaled.2 with h | h <;> omega
  refine ⟨nearestEven scaled.1 scaled.2, hdown.trans (floor_le_nearestEven _ _), hle, ?_, ?_⟩
  · rw [round, decade_eq hnum hden]
  · rw [carryPoint, ← le_div_iff₀ hunit, ← hscaled]
    have hiff : 10 ^ (places + 1) ≤ nearestEven scaled.1 scaled.2 ↔
        ((10 ^ (places + 1) : Nat) : Rat) - 1 / 2 ≤ scaled.1 / scaled.2 :=
      le_nearestEven_iff hpos heven
    push_cast at hiff
    rw [← hiff]
    omega

/-- The rounded number has one digit before the point, which is not zero, and `places` digits
behind it. -/
theorem digits_round (places : Nat) {num den : Nat} (hnum : 0 < num) (hden : 0 < den) :
    (round places num den).places = places ∧ 10 ^ places ≤ (round places num den).digits ∧
      (round places num den).digits < 10 ^ (places + 1) := by
  obtain ⟨n, hlow, hhigh, heq, -⟩ := round_eq places hnum hden
  rw [heq, carried, Nat.pow_eq, Nat.pow_eq]
  split
  next => exact ⟨rfl, le_rfl, Nat.pow_lt_pow_right (by decide) (Nat.lt_succ_self _)⟩
  next hne => exact ⟨rfl, hlow, lt_of_le_of_ne hhigh hne⟩

/-- The exponent is above a given one from the carry point on. -/
theorem lt_exponent_round_iff (places : Nat) {num den : Nat} (hnum : 0 < num) (hden : 0 < den)
    (k : Int) :
    k < (round places num den).exponent ↔ carryPoint places k ≤ num / den := by
  obtain ⟨n, -, -, heq, hcarry⟩ := round_eq places hnum hden
  obtain ⟨hlow, hhigh⟩ := carryPoint_mem places k
  have hx : 0 < (num : Rat) / den := by positivity
  rw [heq, carried]
  -- The decade decides unless it is `k` itself, where a carry decides.
  rcases lt_trichotomy k (Int.log 10 ((num : Rat) / den)) with hlt | rfl | hgt
  · refine iff_of_true ?_ ?_
    · split
      · exact hlt.trans (lt_add_one _)
      · exact hlt
    · exact hhigh.trans ((Int.zpow_le_iff_le_log (b := 10) (by decide) hx).2 hlt)
  · rw [← hcarry, Nat.pow_eq]
    split
    next h => simp [h]
    next h => simp [h]
  · refine iff_of_false ?_ ?_
    · split
      · exact not_lt.2 hgt
      · exact not_lt.2 hgt.le
    · exact not_le.2 (((Int.lt_zpow_iff_log_lt (b := 10) (by decide) hx).2 hgt).trans_le hlow)

end Scientific

/-! ## Texts -/

namespace ExponentStyle

/-- Digits filled up with zeros on the left denote the same number. -/
theorem natural?_filled (k n : Nat) :
    natural? (List.replicate k '0' ++ decimalDigits n) = some n := by
  have hdigits : (List.replicate k '0' ++ decimalDigits n).all Char.isDigit = true :=
    List.all_eq_true.2 fun _ => isDigit_of_mem_filled
  have hnonempty : (List.replicate k '0' ++ decimalDigits n).isEmpty = false := by
    rw [List.isEmpty_eq_false_iff]
    exact List.append_ne_nil_of_right_ne_nil _ (decimalDigits_ne_nil n)
  rw [natural?, hdigits, hnonempty, Nat.ofDigitChars_append, Nat.ofDigitChars_replicate_zero,
    Nat.mul_zero, decimalDigits_eq, Nat.ofDigitChars_ten_toDigits]
  rfl

/-- A text that starts with a digit has no sign. -/
theorem integer?_of_digits {ds : List Char} (h : ∀ c ∈ ds, c.isDigit = true) :
    integer? ds = (natural? ds).map fun n => (n : Int) := by
  unfold integer?
  split
  · exact absurd (h _ List.mem_cons_self) (by decide)
  · exact absurd (h _ List.mem_cons_self) (by decide)
  · rfl

/-- The text of an exponent denotes it, in every style. -/
theorem integer?_text (style : ExponentStyle) (e : Int) : integer? (style.text e) = some e := by
  -- One case for each sign that may be written, of which the last one is none.
  unfold text
  dsimp only
  split
  next hneg =>
    rw [List.append_assoc, List.singleton_append, integer?, natural?_filled]
    show some (-(e.natAbs : Int)) = some e
    rw [Int.ofNat_natAbs_of_nonpos hneg.le, neg_neg]
  next hnonneg =>
    have hnat : some (e.natAbs : Int) = some e := by
      rw [Int.natAbs_of_nonneg (not_lt.1 hnonneg)]
    split
    · rw [List.append_assoc, List.singleton_append, integer?, natural?_filled]
      exact hnat
    · rw [List.nil_append, integer?_of_digits fun _ => isDigit_of_mem_filled, natural?_filled]
      exact hnat

/-- An exponent is read back from its text. -/
theorem read?_text (style : ExponentStyle) {e : Int} (hlow : -2147483648 ≤ e)
    (hhigh : e ≤ 2147483647) : read? (style.text e) = some e := by
  rw [read?, integer?_text]
  simp [hlow, hhigh]

/-- The exponent in the signed style is a sign and at least two digits. -/
theorem signed_text (e : Int) : ∃ sign digits, signed.text e = sign :: digits ∧
    (sign = '+' ∨ sign = '-') ∧ 2 ≤ digits.length ∧ ∀ c ∈ digits, c.isDigit = true := by
  refine ⟨if e < 0 then '-' else '+', List.replicate (2 - (decimalDigits e.natAbs).length) '0' ++
    decimalDigits e.natAbs, ?_, ?_, ?_, fun _ => isDigit_of_mem_filled⟩
  · unfold text signed
    dsimp only
    split <;> rfl
  · split
    · exact .inr rfl
    · exact .inl rfl
  · rw [List.length_append, List.length_replicate]
    omega

/-- The exponent in the signed style takes one character for the sign and at least two for the
digits. -/
theorem length_signed_text (e : Int) :
    (signed.text e).length = 1 + max 2 (decimalLength e.natAbs) := by
  unfold text signed decimalLength
  dsimp only
  split <;> simp <;> omega

/-- The text of an exponent holds digits and signs only. -/
theorem mem_text {style : ExponentStyle} {e : Int} {c : Char} (h : c ∈ style.text e) :
    c.isDigit = true ∨ c = '-' ∨ c = '+' := by
  unfold text at h
  dsimp only at h
  rw [List.append_assoc] at h
  rcases List.mem_append.1 h with hsign | hdigit
  · split at hsign
    · exact .inr (.inl (List.mem_singleton.1 hsign))
    · split at hsign
      · exact .inr (.inr (List.mem_singleton.1 hsign))
      · exact absurd hsign List.not_mem_nil
  · exact .inl (isDigit_of_mem_filled hdigit)

/-- A text without an exponent is left as it is. -/
theorem rewrite_of_not_mem {style : ExponentStyle} {text : List Char} (h : 'e' ∉ text) :
    style.rewrite text = text := by
  have hall : ∀ c ∈ text, decide (c ≠ 'e') = true := fun c hc =>
    decide_eq_true (ne_of_mem_of_not_mem hc h)
  rw [rewrite, List.span_eq_takeWhile_dropWhile, List.takeWhile_eq_self_iff.2 hall,
    List.dropWhile_eq_nil_iff.2 hall]

/-- The exponent is written anew, whatever style it has. -/
theorem rewrite_append (style style' : ExponentStyle) {mantissa : List Char} {e : Int}
    (hmantissa : 'e' ∉ mantissa) (hlow : -2147483648 ≤ e) (hhigh : e ≤ 2147483647) :
    style.rewrite (mantissa ++ 'e' :: style'.text e) = mantissa ++ 'e' :: style.text e := by
  have hall : ∀ c ∈ mantissa, decide (c ≠ 'e') = true := fun c hc =>
    decide_eq_true (ne_of_mem_of_not_mem hc hmantissa)
  have hspan : (mantissa ++ 'e' :: style'.text e).span (· ≠ 'e') =
      (mantissa, 'e' :: style'.text e) := by
    rw [List.span_eq_takeWhile_dropWhile, List.takeWhile_append_of_pos hall,
      List.dropWhile_append_of_pos hall]
    simp
  rw [rewrite, hspan]
  dsimp only
  rw [read?_text style' hlow hhigh]

end ExponentStyle

namespace Scientific

variable {s : Scientific}

/-- All digits are those of the number with zeros in front. -/
theorem allDigits_eq : s.allDigits =
    List.replicate (s.places + 1 - (decimalDigits s.digits).length) '0' ++ decimalDigits s.digits :=
  rfl

/-- They fill the places asked for. -/
theorem length_allDigits (h : s.digits < 10 ^ (s.places + 1)) :
    s.allDigits.length = s.places + 1 := by
  have hle : (decimalDigits s.digits).length ≤ s.places + 1 :=
    (decimalLength_le_iff (Nat.succ_pos _)).2 h
  rw [allDigits_eq, List.length_append, List.length_replicate, Nat.sub_add_cancel hle]

/-- The digits take one character each, and a point goes with the fraction digits. -/
theorem length_mantissa (h : s.digits < 10 ^ (s.places + 1)) :
    s.mantissa.length = if s.places = 0 then 1 else s.places + 2 := by
  have hlength := length_allDigits h
  unfold mantissa
  split
  next hdigits =>
    rw [hdigits] at hlength
    exact absurd hlength (by simp)
  next d hdigits =>
    rw [hdigits, List.length_singleton] at hlength
    rw [if_pos (by omega), List.length_singleton]
  next d rest hrest hdigits =>
    rw [hdigits, List.length_cons] at hlength
    have hpos : rest.length ≠ 0 := fun h0 => hrest (List.length_eq_zero_iff.1 h0)
    rw [if_neg (by omega), List.length_cons, List.length_cons]
    omega

/-- The mantissa holds digits and a point only. -/
theorem mem_mantissa {c : Char} (h : c ∈ s.mantissa) : c.isDigit = true ∨ c = '.' := by
  have hall : ∀ c ∈ s.allDigits, c.isDigit = true := fun _ => isDigit_of_mem_filled
  unfold mantissa at h
  split at h
  next => exact absurd h List.not_mem_nil
  next d hdigits =>
    exact .inl (hall c (hdigits ▸ h))
  next d rest _ hdigits =>
    rw [hdigits] at hall
    rcases List.mem_cons.1 h with rfl | h
    · exact .inl (hall _ List.mem_cons_self)
    · rcases List.mem_cons.1 h with rfl | h
      · exact .inr rfl
      · exact .inl (hall c (List.mem_cons_of_mem _ h))

/-- So there is no `e` in it. -/
theorem e_not_mem_mantissa : 'e' ∉ s.mantissa := fun h => by
  rcases mem_mantissa h with h | h <;> exact absurd h (by decide)

end Scientific

end DualHessian
