import Mathlib.Algebra.Order.Floor.Semifield
import Mathlib.Data.Int.Log
import Mathlib.Data.Rat.Floor
import Mathlib.Tactic.Linarith
import Mathlib.Tactic.NormNum
import Mathlib.Tactic.Positivity

/-!
# Rounding to double precision

What the format of doubles makes of a positive rational number: the digits from the place at which
rounding happens upwards, rounded to the nearest integer. Numbers in order are rounded to digits in
order, `placesOf_mono`, and a quotient of doubles is the rounded quotient of their values,
`roundWithAccuracy_divCore`.

The format rounds in steps of one binary place and keeps two bits about all places that it has
dropped. `extended` is the state of that computation for a given number; `shiftRightOne_extended`
is one step.
-/

namespace DualHessian.Rounding

open Float.Model Float.Model.UnpackedFloat

/-- How a number that is not negative compares with the integer below it. -/
def accuracyOf (x : Rat) : Accuracy :=
  if x = ⌊x⌋₊ then .exact else .inexact (compare (2 * (x - ⌊x⌋₊)) 1)

/-- The integer nearest to a number that is not negative, the even one if there are two. -/
def nearest (x : Rat) : Nat := (accuracyOf x).roundToNearestEven ⌊x⌋₊

/-- A number that is not negative, as far as it matters for rounding. -/
def extended (x : Rat) : ExtendedMantissa := .ofMantissaAndAccuracy ⌊x⌋₊ (accuracyOf x)

/-- Below the middle the nearest integer is the one below. -/
theorem nearest_of_lt {x : Rat} (h : 2 * (x - ⌊x⌋₊) < 1) : nearest x = ⌊x⌋₊ := by
  unfold nearest accuracyOf
  split
  · rfl
  · rw [compare_lt_iff_lt.2 h]
    rfl

/-- In the middle it is the even one of both neighbours. -/
theorem nearest_of_eq {x : Rat} (h : 2 * (x - ⌊x⌋₊) = 1) : nearest x = ⌊x⌋₊ + ⌊x⌋₊ % 2 := by
  unfold nearest accuracyOf
  split
  · rename_i hexact
    linarith
  · rw [compare_eq_iff_eq.2 h]
    rfl

/-- Above the middle it is the one above. -/
theorem nearest_of_gt {x : Rat} (h : 1 < 2 * (x - ⌊x⌋₊)) : nearest x = ⌊x⌋₊ + 1 := by
  unfold nearest accuracyOf
  split
  · rename_i hexact
    linarith
  · rw [compare_gt_iff_gt.2 h]
    rfl

/-- The nearest integer is the one below or the one above. -/
theorem floor_le_nearest (x : Rat) : ⌊x⌋₊ ≤ nearest x ∧ nearest x ≤ ⌊x⌋₊ + 1 := by
  rcases lt_trichotomy (2 * (x - ⌊x⌋₊)) 1 with h | h | h
  · rw [nearest_of_lt h]
    omega
  · rw [nearest_of_eq h]
    omega
  · rw [nearest_of_gt h]
    omega

/-- Rounding to an integer keeps the order. -/
theorem nearest_mono {x y : Rat} (h : x ≤ y) : nearest x ≤ nearest y := by
  -- Different integers below leave no choice; with the same one, the parts behind it decide.
  rcases Nat.lt_or_eq_of_le (Nat.floor_mono h) with hlt | heq
  · have hx := (floor_le_nearest x).2
    have hy := (floor_le_nearest y).1
    omega
  · rcases lt_trichotomy (2 * (x - ⌊x⌋₊)) 1 with hx | hx | hx
    · rw [nearest_of_lt hx, heq]
      exact (floor_le_nearest y).1
    · rcases lt_trichotomy (2 * (y - ⌊y⌋₊)) 1 with hy | hy | hy
      · rw [heq] at hx
        linarith
      · rw [nearest_of_eq hx, nearest_of_eq hy, heq]
      · rw [nearest_of_eq hx, nearest_of_gt hy, heq]
        omega
    · have hy : 1 < 2 * (y - ⌊y⌋₊) := by
        rw [heq] at hx
        linarith
      rw [nearest_of_gt hx, nearest_of_gt hy, heq]

/-- Two guard bits are enough to round to the nearest integer. -/
theorem roundedMantissa_extended (x : Rat) : (extended x).roundedMantissa = nearest x := by
  unfold extended nearest
  rcases accuracyOf x with _ | _ | _ | _ <;> rfl

/-- The guard bits say where the number stands between two integers. -/
theorem extended_eq (x : Rat) :
    extended x = ⟨⌊x⌋₊, decide (1 ≤ 2 * (x - ⌊x⌋₊)),
      decide (x ≠ ⌊x⌋₊ ∧ 2 * (x - ⌊x⌋₊) ≠ 1)⟩ := by
  unfold extended accuracyOf
  split
  · rename_i hexact
    have hround : ¬1 ≤ 2 * (x - ⌊x⌋₊) := by linarith
    have hsticky : ¬(x ≠ ⌊x⌋₊ ∧ 2 * (x - ⌊x⌋₊) ≠ 1) := fun h => h.1 hexact
    rw [decide_eq_false hround, decide_eq_false hsticky]
    rfl
  · rename_i hinexact
    rcases lt_trichotomy (2 * (x - ⌊x⌋₊)) 1 with h | h | h
    · rw [compare_lt_iff_lt.2 h, decide_eq_false (not_le.2 h), decide_eq_true ⟨hinexact, h.ne⟩]
      rfl
    · have hsticky : ¬(x ≠ ⌊x⌋₊ ∧ 2 * (x - ⌊x⌋₊) ≠ 1) := fun hne => hne.2 h
      rw [compare_eq_iff_eq.2 h, decide_eq_true h.ge, decide_eq_false hsticky]
      rfl
    · rw [compare_gt_iff_gt.2 h, decide_eq_true h.le, decide_eq_true ⟨hinexact, h.ne'⟩]
      rfl

/-- The integer below a number is twice a half of it, and one more if it is odd. -/
private theorem floor_halves (x : Rat) :
    (⌊x⌋₊ % 2 = 0 ∧ (⌊x⌋₊ : Rat) = 2 * (⌊x⌋₊ / 2 : Nat)) ∨
      (⌊x⌋₊ % 2 = 1 ∧ (⌊x⌋₊ : Rat) = 2 * (⌊x⌋₊ / 2 : Nat) + 1) := by
  have hsplit := Nat.div_add_mod ⌊x⌋₊ 2
  rcases Nat.mod_two_eq_zero_or_one ⌊x⌋₊ with h | h
  · refine .inl ⟨h, ?_⟩
    rw [h, Nat.add_zero] at hsplit
    exact_mod_cast hsplit.symm
  · refine .inr ⟨h, ?_⟩
    rw [h] at hsplit
    exact_mod_cast hsplit.symm

/-- The digits behind the point of a number are not all zero. -/
private theorem inexact_iff (x : Rat) :
    (1 ≤ 2 * (x - ⌊x⌋₊) ∨ x ≠ ⌊x⌋₊ ∧ 2 * (x - ⌊x⌋₊) ≠ 1) ↔ x ≠ ⌊x⌋₊ := by
  constructor
  · rintro (h | h)
    · intro heq
      linarith
    · exact h.1
  · intro hne
    rcases lt_trichotomy (2 * (x - ⌊x⌋₊)) 1 with h | h | h
    · exact .inr ⟨hne, h.ne⟩
    · exact .inl h.ge
    · exact .inl h.le

/-- The digits behind the first one behind the point of a half are those behind the point of the
number. -/
private theorem inexact_half_iff {x : Rat} (hx : 0 ≤ x) :
    (x / 2 ≠ (⌊x⌋₊ / 2 : Nat) ∧ 2 * (x / 2 - (⌊x⌋₊ / 2 : Nat)) ≠ 1) ↔ x ≠ ⌊x⌋₊ := by
  have hle : (⌊x⌋₊ : Rat) ≤ x := Nat.floor_le hx
  have hlt : x < ⌊x⌋₊ + 1 := Nat.lt_floor_add_one x
  rcases floor_halves x with ⟨_, heven⟩ | ⟨_, hodd⟩
  · constructor
    · exact fun h heq => h.1 (by linarith)
    · exact fun hne => ⟨fun heq => hne (by linarith), fun heq => by linarith⟩
  · constructor
    · exact fun h heq => h.2 (by linarith)
    · exact fun hne => ⟨fun heq => by linarith, fun heq => hne (by linarith)⟩

/-- Moving the binary point by one place divides by two. -/
theorem shiftRightOne_extended {x : Rat} (hx : 0 ≤ x) :
    (extended x).shiftRightOne = extended (x / 2) := by
  have hfloor : ⌊x / 2⌋₊ = ⌊x⌋₊ / 2 := Nat.floor_div_ofNat x 2
  have hle : (⌊x⌋₊ : Rat) ≤ x := Nat.floor_le hx
  have hlt : x < ⌊x⌋₊ + 1 := Nat.lt_floor_add_one x
  rw [extended_eq, extended_eq, hfloor]
  unfold ExtendedMantissa.shiftRightOne
  congr 1
  · -- The dropped digit is the first one behind the point now.
    rcases floor_halves x with ⟨h, heven⟩ | ⟨h, hodd⟩
    · rw [h, decide_eq_false (by linarith)]
      rfl
    · rw [h, decide_eq_true (by linarith)]
      rfl
  · -- Both sides say that the number is not an integer.
    show (decide _ || decide _) = decide _
    rw [← Bool.decide_or]
    exact decide_eq_decide.2 ((inexact_iff x).trans (inexact_half_iff hx).symm)

/-- Moving the binary point by several places divides by a power of two. -/
theorem shiftRight_extended {x : Rat} (hx : 0 ≤ x) (k : Nat) :
    extended x >>> k = extended (x / 2 ^ k) := by
  show k.repeat ExtendedMantissa.shiftRightOne (extended x) = _
  induction k with
  | zero => rw [pow_zero, div_one, Nat.repeat]
  | succ k ih =>
    rw [Nat.repeat, ih, shiftRightOne_extended (by positivity), div_div, ← pow_succ]

/-- Fractions are compared with the integers below them by their remainders. -/
theorem accuracyOfFraction_eq (m : Nat) {n : Nat} (hn : 0 < n) :
    accuracyOfFraction (m % n) n = accuracyOf ((m : Rat) / n) := by
  have hpos : (0 : Rat) < n := by exact_mod_cast hn
  have hdiff : 2 * ((m : Rat) / n - (m / n : Nat)) = (2 * (m % n) : Nat) / n := by
    have hsplit : (m : Rat) = n * (m / n : Nat) + (m % n : Nat) := by
      exact_mod_cast (Nat.div_add_mod m n).symm
    rw [div_sub' hpos.ne', mul_div_assoc', sub_eq_of_eq_add' hsplit]
    push_cast
    rfl
  unfold accuracyOfFraction accuracyOf
  rw [Nat.floor_div_eq_div, hdiff]
  by_cases hexact : m % n = 0
  · rw [if_pos hexact, if_pos]
    rw [hexact, Nat.mul_zero, Nat.cast_zero, zero_div] at hdiff
    linarith
  · rw [if_neg hexact, if_neg]
    · congr 1
      rcases lt_trichotomy (2 * (m % n)) n with h | h | h
      · have hcast : ((2 * (m % n) : Nat) : Rat) < n := by exact_mod_cast h
        rw [compare_lt_iff_lt.2 h, compare_lt_iff_lt.2 ((div_lt_one hpos).2 hcast)]
      · rw [compare_eq_iff_eq.2 h, h, div_self hpos.ne', compare_eq_iff_eq.2 rfl]
      · have hcast : (n : Rat) < (2 * (m % n) : Nat) := by exact_mod_cast h
        rw [compare_gt_iff_gt.2 h, compare_gt_iff_gt.2 ((one_lt_div hpos).2 hcast)]
    · intro heq
      rw [heq, sub_self, mul_zero, eq_comm, div_eq_zero_iff] at hdiff
      rcases hdiff with h | h
      · have hzero : 2 * (m % n) = 0 := by exact_mod_cast h
        omega
      · exact hpos.ne' h

/-! ## Exponents -/

/-- The exponent of the place to which a positive number is rounded: it has 53 places then, or
fewer above the least place of all. -/
def scaleOf (x : Rat) : Int := max (Int.log 2 x - 52) (-1074)

/-- Larger numbers have no smaller last place. -/
theorem scaleOf_mono {x y : Rat} (hx : 0 < x) (h : x ≤ y) : scaleOf x ≤ scaleOf y := by
  have hlog : Int.log 2 x ≤ Int.log 2 y := Int.log_mono_right hx h
  unfold scaleOf
  omega

/-- The exponent that the format aims at is found from the digits, whatever place they end at. -/
theorem targetExponent_eq {x : Rat} (hx : 0 < x) {e : Int} (he : e ≤ scaleOf x) :
    Format.binary64.targetExponent (totalExponent ⌊x / 2 ^ e⌋₊ e) = scaleOf x := by
  have hformat : ∀ k : Int, Format.binary64.targetExponent k = max (k - 53) (-1074) :=
    fun k => rfl
  have hunit : (0 : Rat) < 2 ^ e := zpow_pos (by norm_num) e
  have hscaled : 0 < x / 2 ^ e := div_pos hx hunit
  rw [hformat, totalExponent]
  rcases Nat.eq_zero_or_pos ⌊x / 2 ^ e⌋₊ with h | h
  · -- No digits are left, and the least place is aimed at.
    have hsmall : Int.log 2 x < e := by
      apply (Int.lt_zpow_iff_log_lt (by norm_num) hx).1
      exact (div_lt_one hunit).1 (Nat.floor_eq_zero.1 h)
    rw [h]
    show max (0 + 1 + e - 53) (-1074) = _
    unfold scaleOf at he ⊢
    omega
  · have hlog : Int.log 2 x = (⌊x / 2 ^ e⌋₊.log2 : Int) + e := by
      have hle : (2 : Rat) ^ ((⌊x / 2 ^ e⌋₊.log2 : Int) + e) ≤ x := by
        rw [zpow_add₀ (by norm_num), ← le_div_iff₀ hunit, zpow_natCast]
        refine le_trans ?_ (Nat.floor_le hscaled.le)
        exact_mod_cast Nat.log2_self_le h.ne'
      have hlt : x < (2 : Rat) ^ ((⌊x / 2 ^ e⌋₊.log2 : Int) + e + 1) := by
        rw [add_right_comm, zpow_add₀ (by norm_num), ← div_lt_iff₀ hunit]
        refine (Nat.lt_floor_add_one _).trans_le ?_
        exact_mod_cast Nat.lt_log2_self (n := ⌊x / 2 ^ e⌋₊)
      have hlower := (Int.zpow_le_iff_le_log (b := 2) (by norm_num) hx).1 hle
      have hupper := (Int.lt_zpow_iff_log_lt (b := 2) (by norm_num) hx).1 hlt
      omega
    unfold scaleOf at he ⊢
    omega

/-- Shifting from any place further down finds the last place and the guard bits there. -/
theorem shiftToTargetExponent_eq {x : Rat} (hx : 0 < x) {e : Int} (he : e ≤ scaleOf x) :
    shiftToTargetExponent .binary64 ⌊x / 2 ^ e⌋₊ e (accuracyOf (x / 2 ^ e)) =
      (extended (x / 2 ^ scaleOf x), scaleOf x) := by
  have hscaled : 0 ≤ x / (2 : Rat) ^ e := (div_pos hx (zpow_pos (by norm_num) e)).le
  obtain ⟨k, hk⟩ := Int.eq_ofNat_of_zero_le (sub_nonneg.2 he)
  have hscale : scaleOf x = e + k := by omega
  unfold shiftToTargetExponent shiftToExponent
  simp only [targetExponent_eq hx he, hk, Int.toNat_natCast]
  show (extended (x / 2 ^ e) >>> k, e + (k : Int)) = _
  rw [shiftRight_extended hscaled, hscale, zpow_add₀ (by norm_num), zpow_natCast, div_div]

/-- No number has more than 53 digits in front of its last place. -/
theorem div_scaleOf_lt {x : Rat} (hx : 0 < x) : x / 2 ^ scaleOf x < 2 ^ 53 := by
  rw [div_lt_iff₀ (zpow_pos (by norm_num) _), ← zpow_natCast, ← zpow_add₀ (by norm_num)]
  apply (Int.lt_zpow_iff_log_lt (b := 2) (by norm_num) hx).2
  unfold scaleOf
  omega

/-- It has all 53 of them unless it is subnormal. -/
theorem le_div_scaleOf {x : Rat} (hx : 0 < x) (h : -1074 < scaleOf x) :
    2 ^ 52 ≤ x / 2 ^ scaleOf x := by
  rw [le_div_iff₀ (zpow_pos (by norm_num) _), ← zpow_natCast, ← zpow_add₀ (by norm_num)]
  apply (Int.zpow_le_iff_le_log (b := 2) (by norm_num) hx).2
  unfold scaleOf at h ⊢
  omega

/-- A positive number in units of the place to which it is rounded. -/
def digitsOf (x : Rat) : Nat := nearest (x / 2 ^ scaleOf x)

/-- Rounding carries at most into one further digit. -/
theorem digitsOf_le {x : Rat} (hx : 0 < x) : digitsOf x ≤ 2 ^ 53 := by
  have hpos : 0 < x / 2 ^ scaleOf x := div_pos hx (zpow_pos (by norm_num) _)
  have hfloor : ⌊x / 2 ^ scaleOf x⌋₊ < 2 ^ 53 := by
    apply (Nat.floor_lt hpos.le).2
    exact_mod_cast div_scaleOf_lt hx
  have h := (floor_le_nearest (x / 2 ^ scaleOf x)).2
  unfold digitsOf
  omega

/-- The digits of a number that is not subnormal fill the whole width. -/
theorem le_digitsOf {x : Rat} (hx : 0 < x) (h : -1074 < scaleOf x) : 2 ^ 52 ≤ digitsOf x := by
  refine le_trans (Nat.le_floor ?_) (floor_le_nearest _).1
  exact_mod_cast le_div_scaleOf hx h

/-! ## Rounding -/

/-- The digits of a positive number and the exponent of the last one. If rounding gives a place
more than there are, the last one, a zero, is dropped. -/
def placesOf (x : Rat) : Nat × Int :=
  if digitsOf x = 2 ^ 53 then (2 ^ 52, scaleOf x + 1) else (digitsOf x, scaleOf x)

/-- A number with a sign, digits and the exponent of the last one. -/
def ofDigits (s : Sign) (m : Nat) (e : Int) : UnpackedFloat :=
  if h : m = 0 then .zero s else .finite s m e (Nat.pos_of_ne_zero h)

/-- Without digits the number is zero. -/
@[simp] theorem ofDigits_zero (s : Sign) (e : Int) : ofDigits s 0 e = .zero s := rfl

/-- With digits it is finite. -/
theorem ofDigits_of_pos (s : Sign) {m : Nat} (hm : 0 < m) (e : Int) :
    ofDigits s m e = .finite s m e hm :=
  dif_neg hm.ne'

/-- Digits make a number. -/
theorem ofDigits_ne_notANumber (s : Sign) (m : Nat) (e : Int) :
    ofDigits s m e ≠ .notANumber := by
  rcases Nat.eq_zero_or_pos m with rfl | hm
  · exact nofun
  · rw [ofDigits_of_pos s hm]
    exact nofun

/-- A positive number, rounded and with a sign. -/
def rounded (s : Sign) (x : Rat) : UnpackedFloat := ofDigits s (placesOf x).1 (placesOf x).2

/-- Digits that are rounded already are shifted without a loss. -/
theorem shiftToTargetExponent_digits {x : Rat} (hx : 0 < x) :
    shiftToTargetExponent .binary64 (digitsOf x) (scaleOf x) .exact =
      (⟨(placesOf x).1, false, false⟩, (placesOf x).2) := by
  have hscale : -1074 ≤ scaleOf x := le_max_right _ _
  have hformat : Format.binary64.targetExponent (totalExponent (digitsOf x) (scaleOf x)) =
      max ((digitsOf x).log2 + 1 + scaleOf x - 53) (-1074) := rfl
  have hshift : shiftToTargetExponent .binary64 (digitsOf x) (scaleOf x) .exact =
      ((⟨digitsOf x, false, false⟩ : ExtendedMantissa) >>>
          (max ((digitsOf x).log2 + 1 + scaleOf x - 53) (-1074) - scaleOf x).toNat,
        scaleOf x +
          (max ((digitsOf x).log2 + 1 + scaleOf x - 53) (-1074) - scaleOf x).toNat) := by
    rw [← hformat]
    rfl
  rw [hshift, placesOf]
  by_cases h : digitsOf x = 2 ^ 53
  · -- Rounding has carried into a new place.
    have hone : (max (((2 ^ 53 : Nat).log2 : Int) + 1 + scaleOf x - 53) (-1074) -
        scaleOf x).toNat = 1 := by
      rw [Nat.log2_two_pow]
      omega
    rw [if_pos h, h, hone]
    rfl
  · have hlog : (digitsOf x).log2 ≤ 52 := by
      have hlt : digitsOf x < 2 ^ 53 := lt_of_le_of_ne (digitsOf_le hx) h
      by_cases hzero : digitsOf x = 0
      · rw [hzero]
        decide
      · exact Nat.lt_succ_iff.1 ((Nat.log2_lt hzero).2 hlt)
    have hnone : (max (((digitsOf x).log2 : Int) + 1 + scaleOf x - 53) (-1074) -
        scaleOf x).toNat = 0 := by
      omega
    rw [if_neg h, hnone]
    show (_, scaleOf x + 0) = _
    rw [add_zero]
    rfl

/-- What the format rounds to. -/
theorem roundWithAccuracy_eq (s : Sign) {x : Rat} (hx : 0 < x) {e : Int} (he : e ≤ scaleOf x) :
    roundWithAccuracy .binary64 s ⌊x / 2 ^ e⌋₊ e (accuracyOf (x / 2 ^ e)) = rounded s x := by
  have hfinish : ∀ first, shiftToTargetExponent .binary64 ⌊x / 2 ^ e⌋₊ e
        (accuracyOf (x / 2 ^ e)) = first →
      roundWithAccuracy .binary64 s ⌊x / 2 ^ e⌋₊ e (accuracyOf (x / 2 ^ e)) =
        ofDigits s
          (shiftToTargetExponent .binary64 first.1.roundedMantissa first.2 .exact).1.mantissa
          (shiftToTargetExponent .binary64 first.1.roundedMantissa first.2 .exact).2 := by
    rintro _ rfl
    rfl
  rw [hfinish _ (shiftToTargetExponent_eq hx he), roundedMantissa_extended]
  show ofDigits s (shiftToTargetExponent .binary64 (digitsOf x) (scaleOf x) .exact).1.mantissa
    (shiftToTargetExponent .binary64 (digitsOf x) (scaleOf x) .exact).2 = _
  rw [shiftToTargetExponent_digits hx]
  rfl

/-- Digits and an exponent as a double has them: at most 53 digits, and fewer only if the last one
is the least of all. -/
def Canonical (m : Nat) (e : Int) : Prop := m < 2 ^ 53 ∧ -1074 ≤ e ∧ (2 ^ 52 ≤ m ∨ e = -1074)

/-- The rounded digits and their place are in canonical form. -/
theorem canonical_placesOf {x : Rat} (hx : 0 < x) :
    Canonical (placesOf x).1 (placesOf x).2 := by
  have hscale : -1074 ≤ scaleOf x := le_max_right _ _
  unfold placesOf
  split
  · show Canonical (2 ^ 52) (scaleOf x + 1)
    exact ⟨by norm_num, by omega, .inl le_rfl⟩
  · rename_i h
    refine ⟨lt_of_le_of_ne (digitsOf_le hx) h, hscale, ?_⟩
    rcases hscale.eq_or_lt with heq | hlt
    · exact .inr heq.symm
    · exact .inl (le_digitsOf hx hlt)

/-- Rounding keeps the order. -/
theorem placesOf_mono {x y : Rat} (hx : 0 < x) (h : x ≤ y) :
    (placesOf x).2 < (placesOf y).2 ∨
      (placesOf x).2 = (placesOf y).2 ∧ (placesOf x).1 ≤ (placesOf y).1 := by
  have hy : 0 < y := hx.trans_le h
  have hdigits : digitsOf x ≤ 2 ^ 53 ∧ digitsOf y ≤ 2 ^ 53 := ⟨digitsOf_le hx, digitsOf_le hy⟩
  rcases (scaleOf_mono hx h).lt_or_eq with hlt | heq
  · -- The larger number has all its places, and the smaller one carries at most to the first.
    have hnormal : 2 ^ 52 ≤ digitsOf y := le_digitsOf hy (lt_of_le_of_lt (le_max_right _ _) hlt)
    unfold placesOf
    split <;> split <;> simp only <;> omega
  · have hmono : digitsOf x ≤ digitsOf y := by
      unfold digitsOf
      rw [heq]
      refine nearest_mono (div_le_div_of_nonneg_right h ?_)
      exact (zpow_pos (by norm_num) _).le
    unfold placesOf
    split <;> split <;> simp only <;> omega

/-! ## Quotients -/

/-- The number with the given digits and the exponent of the last one. -/
def valueOf (m : Nat) (e : Int) : Rat := m * 2 ^ e

/-- Numbers with digits are positive. -/
theorem valueOf_pos {m : Nat} (hm : 0 < m) (e : Int) : 0 < valueOf m e :=
  mul_pos (by exact_mod_cast hm) (zpow_pos (by norm_num) e)

/-- The exponent of a number bounds its value from both sides. -/
theorem valueOf_bounds {m : Nat} (hm : 0 < m) (e : Int) :
    2 ^ (totalExponent m e - 1) ≤ valueOf m e ∧ valueOf m e < 2 ^ totalExponent m e := by
  have hunit : (0 : Rat) < 2 ^ e := zpow_pos (by norm_num) e
  have hlower : (2 : Rat) ^ m.log2 ≤ m := by exact_mod_cast Nat.log2_self_le hm.ne'
  have hupper : (m : Rat) < 2 ^ (m.log2 + 1) := by exact_mod_cast Nat.lt_log2_self
  have hbelow : totalExponent m e - 1 = (m.log2 : Nat) + e := by
    unfold totalExponent
    omega
  have habove : totalExponent m e = (m.log2 + 1 : Nat) + e := rfl
  unfold valueOf
  rw [hbelow, habove, zpow_add₀ (by norm_num), zpow_add₀ (by norm_num), zpow_natCast, zpow_natCast]
  exact ⟨mul_le_mul_of_nonneg_right hlower hunit.le, mul_lt_mul_of_pos_right hupper hunit⟩

/-- The digits of doubles are ordered as the numbers are. -/
theorem valueOf_mono {m n : Nat} {e f : Int} (hm : Canonical m e) (hn : Canonical n f)
    (h : e < f ∨ e = f ∧ m ≤ n) : valueOf m e ≤ valueOf n f := by
  have hunit : (0 : Rat) < 2 ^ e := zpow_pos (by norm_num) e
  rcases h with hlt | ⟨rfl, hle⟩
  · have hnormal : (2 : Rat) ^ 52 ≤ n := by
      have h := hn.2.2.resolve_right (by have := hm.2.1; omega)
      exact_mod_cast h
    have hdigits : (m : Rat) ≤ 2 ^ 53 := by exact_mod_cast hm.1.le
    calc valueOf m e ≤ 2 ^ 53 * 2 ^ e := mul_le_mul_of_nonneg_right hdigits hunit.le
      _ = 2 ^ 52 * 2 ^ (e + 1) := by
          rw [zpow_add_one₀ (by norm_num), ← mul_assoc, mul_right_comm]
          norm_num
      _ ≤ 2 ^ 52 * 2 ^ f := by
          refine mul_le_mul_of_nonneg_left (zpow_le_zpow_right₀ (by norm_num) ?_) (by norm_num)
          omega
      _ ≤ valueOf n f := mul_le_mul_of_nonneg_right hnormal (zpow_pos (by norm_num) f).le
  · exact mul_le_mul_of_nonneg_right (by exact_mod_cast hle) hunit.le

/-- A quotient is computed to enough places for rounding it. -/
theorem roundWithAccuracy_divCore (s : Sign) {m n : Nat} (hm : 0 < m) (hn : 0 < n) (e f : Int) :
    (match divCore .binary64 m e n f with
      | (q, t, accuracy) => roundWithAccuracy .binary64 s q t accuracy) =
      rounded s (valueOf m e / valueOf n f) := by
  have hpos : 0 < valueOf m e / valueOf n f := div_pos (valueOf_pos hm e) (valueOf_pos hn f)
  have hformat : Format.binary64.targetExponent (totalExponent m e - totalExponent n f) =
      max (totalExponent m e - totalExponent n f - 53) (-1074) := rfl
  let t := min (e - f) (max (totalExponent m e - totalExponent n f - 53) (-1074))
  have ht : t ≤ scaleOf (valueOf m e / valueOf n f) := by
    -- The first places of the operands bound the first place of the quotient from below.
    have hle : (2 : Rat) ^ (totalExponent m e - totalExponent n f - 1) ≤
        valueOf m e / valueOf n f := by
      rw [le_div_iff₀ (valueOf_pos hn f)]
      refine le_trans (mul_le_mul_of_nonneg_left (valueOf_bounds hn f).2.le
        (zpow_pos (by norm_num) _).le) ?_
      rw [← zpow_add₀ (by norm_num), sub_right_comm, sub_add_cancel]
      exact (valueOf_bounds hm e).1
    have hlog := (Int.zpow_le_iff_le_log (b := 2) (by norm_num) hpos).1 hle
    unfold scaleOf
    omega
  have hvalue : valueOf m e / valueOf n f / 2 ^ t =
      (m <<< (e - f - t).toNat : Nat) / (n : Rat) := by
    have hshift : ((e - f - t).toNat : Int) = e - f - t := by omega
    have hunit : (2 : Rat) ^ (e - f - t).toNat = 2 ^ e / 2 ^ f / 2 ^ t := by
      rw [← zpow_natCast, hshift, zpow_sub₀ (by norm_num), zpow_sub₀ (by norm_num)]
    rw [Nat.shiftLeft_eq, Nat.cast_mul, Nat.cast_pow, Nat.cast_ofNat, hunit]
    unfold valueOf
    rw [mul_div_mul_comm, mul_div_assoc, mul_div_assoc, div_mul_eq_mul_div, mul_div_assoc]
  have hcore : divCore .binary64 m e n f =
      (⌊valueOf m e / valueOf n f / 2 ^ t⌋₊, t,
        accuracyOf (valueOf m e / valueOf n f / 2 ^ t)) := by
    rw [hvalue, Nat.floor_div_eq_div, ← accuracyOfFraction_eq _ hn]
    rfl
  rw [hcore]
  exact roundWithAccuracy_eq s hpos ht

end DualHessian.Rounding
