import DualHessian.Decimal.Double
import DualHessian.Proofs.Decimal.Scientific
import DualHessian.Proofs.Numbers.Storage

/-!
# The decimal text of a double

What the texts of a double with a fixed number of fraction digits consist of. Rounding goes by the
value of the double, `dyadic_eq`, and the values of doubles have exponents of at most three digits,
`natAbs_exponent_rounded_lt`. So the exponent can always be written anew: `scientific` has the
digits of `fixed` and the same exponent in another style, `scientific_of_finite`.
-/

namespace DualHessian

open Float.Model Rounding

/-- The fraction of a double is its value. -/
theorem dyadic_eq (m : Nat) (e : Int) : ((dyadic m e).1 : Rat) / (dyadic m e).2 = valueOf m e := by
  simp only [dyadic, valueOf, Nat.pow_eq, Nat.cast_mul, Nat.cast_pow, Nat.cast_ofNat]
  rw [zpow_eq_div (by norm_num) e, mul_div_assoc]

/-- Numerator and denominator of a finite number are positive. -/
theorem dyadic_pos {m : Nat} (hm : 0 < m) (e : Int) : 0 < (dyadic m e).1 ∧ 0 < (dyadic m e).2 :=
  ⟨Nat.mul_pos hm (Nat.pow_pos (by decide)), Nat.pow_pos (by decide)⟩

/-- An even power of two is at most the power of ten with half the exponent. -/
theorem two_zpow_le {k : Int} (hk : 0 ≤ k) : (2 : Rat) ^ (2 * k) ≤ 10 ^ k := by
  rw [zpow_mul]
  exact zpow_le_zpow_left₀ hk (by norm_num) (by norm_num)

namespace Double

variable {x : Float} {s : UnpackedFloat.Sign} {m : Nat} {e : Int} {hm : 0 < m}

/-- The rounded digits fill exactly the places asked for. -/
theorem digits_rounded (places : Nat) (hm : 0 < m) (e : Int) :
    (rounded places m e).places = places ∧ 10 ^ places ≤ (rounded places m e).digits ∧
      (rounded places m e).digits < 10 ^ (places + 1) :=
  Scientific.digits_round places (dyadic_pos hm e).1 (dyadic_pos hm e).2

/-- The exponent is larger than `k` from the point on at which rounding carries to the next power of
ten. -/
theorem lt_exponent_rounded_iff (places : Nat) (hm : 0 < m) (e k : Int) :
    k < (rounded places m e).exponent ↔ Scientific.carryPoint places k ≤ valueOf m e := by
  rw [← dyadic_eq]
  exact Scientific.lt_exponent_round_iff places (dyadic_pos hm e).1 (dyadic_pos hm e).2 k

/-- The smallest double is `2 ^ -1074`, and all are below `2 ^ 1024`. -/
theorem valueOf_range (hx : Binary64.partsOf x = .finite s m e hm) :
    (2 : Rat) ^ (-1074 : Int) ≤ valueOf m e ∧ valueOf m e < 2 ^ (1024 : Int) := by
  obtain ⟨⟨hdigits, hsmallest, -⟩, hlargest⟩ :=
    Binary64.canonical_of_ofFields ((Binary64.unpack_eq _).symm.trans hx)
  have hone : (1 : Rat) ≤ m := by exact_mod_cast hm
  have hlt : (m : Rat) < 2 ^ (53 : Int) := by exact_mod_cast hdigits
  have hunit : (0 : Rat) < 2 ^ e := by positivity
  constructor
  · calc (2 : Rat) ^ (-1074 : Int) ≤ 2 ^ e := zpow_le_zpow_right₀ (by norm_num) hsmallest
      _ ≤ m * 2 ^ e := le_mul_of_one_le_left hunit.le hone
  · calc (m : Rat) * 2 ^ e < 2 ^ (53 : Int) * 2 ^ e := mul_lt_mul_of_pos_right hlt hunit
      _ = 2 ^ (53 + e) := (zpow_add₀ (by norm_num) _ _).symm
      _ ≤ 2 ^ (1024 : Int) := zpow_le_zpow_right₀ (by norm_num) (by omega)

/-- The exponent of a double has at most three digits. -/
theorem natAbs_exponent_rounded_lt (places : Nat) (hx : Binary64.partsOf x = .finite s m e hm) :
    (rounded places m e).exponent.natAbs < 1000 := by
  obtain ⟨hlow, hhigh⟩ := valueOf_range hx
  have habove : -1000 < (rounded places m e).exponent := by
    rw [lt_exponent_rounded_iff places hm]
    calc Scientific.carryPoint places (-1000)
        ≤ 10 ^ (-999 : Int) := (Scientific.carryPoint_mem places (-1000)).2
      _ ≤ 2 ^ (-(2 * 999) : Int) := by
          rw [zpow_neg, zpow_neg]
          exact inv_anti₀ (by positivity) (two_zpow_le (by norm_num))
      _ ≤ 2 ^ (-1074 : Int) := zpow_le_zpow_right₀ (by norm_num) (by norm_num)
      _ ≤ valueOf m e := hlow
  have hbelow : ¬999 < (rounded places m e).exponent := by
    rw [lt_exponent_rounded_iff places hm, not_le]
    calc valueOf m e < 2 ^ (1024 : Int) := hhigh
      _ ≤ 2 ^ (2 * 999 : Int) := zpow_le_zpow_right₀ (by norm_num) (by norm_num)
      _ ≤ 10 ^ (999 : Int) := two_zpow_le (by norm_num)
      _ ≤ Scientific.carryPoint places 999 := (Scientific.carryPoint_mem places 999).1
  omega

/-- The letter in front of the exponent does not occur before. -/
theorem e_not_mem_mantissa (places : Nat) (s : UnpackedFloat.Sign) (m : Nat) (e : Int) :
    'e' ∉ signText s ++ (rounded places m e).mantissa := by
  rw [List.mem_append, not_or]
  refine ⟨?_, Scientific.e_not_mem_mantissa⟩
  cases s <;> decide

/-- A finite number has a sign, digits and an exponent. -/
theorem fixed_of_finite (places : Nat) (hx : Binary64.partsOf x = .finite s m e hm) :
    fixed places x = signText s ++ (rounded places m e).mantissa ++
      'e' :: ExponentStyle.plain.text (rounded places m e).exponent := by
  have hx' : x.toModel.unpack = .finite s m e hm := hx
  rw [fixed, text, hx', List.append_assoc]
  rfl

/-- Infinities are written by name. -/
theorem fixed_of_infinity (places : Nat) (hx : Binary64.partsOf x = .infinity s) :
    fixed places x = signText s ++ ['i', 'n', 'f'] := by
  have hx' : x.toModel.unpack = .infinity s := hx
  rw [fixed, text, hx']

/-- What is not a number is written by name. -/
theorem fixed_of_notANumber (places : Nat) (hx : Binary64.partsOf x = .notANumber) :
    fixed places x = ['N', 'a', 'N'] := by
  have hx' : x.toModel.unpack = .notANumber := hx
  rw [fixed, text, hx']

/-- The exponent of a finite number is written in the signed style. -/
theorem scientific_of_finite (places : Nat) (hx : Binary64.partsOf x = .finite s m e hm) :
    scientific places x = signText s ++ (rounded places m e).mantissa ++
      'e' :: ExponentStyle.signed.text (rounded places m e).exponent := by
  have hexponent := natAbs_exponent_rounded_lt places hx
  rw [scientific, fixed_of_finite places hx]
  exact ExponentStyle.rewrite_append _ _ (e_not_mem_mantissa places s m e) (by omega) (by omega)

example : scientific 5 (-0.00125) = "-1.25000e-03".toList := by decide +kernel

/-- Infinities are written by name. -/
theorem scientific_of_infinity (places : Nat) (hx : Binary64.partsOf x = .infinity s) :
    scientific places x = signText s ++ ['i', 'n', 'f'] := by
  rw [scientific, fixed_of_infinity places hx]
  cases s <;> exact ExponentStyle.rewrite_of_not_mem (by decide)

/-- What is not a number is written by name. -/
theorem scientific_of_notANumber (places : Nat) (hx : Binary64.partsOf x = .notANumber) :
    scientific places x = ['N', 'a', 'N'] := by
  rw [scientific, fixed_of_notANumber places hx]
  exact ExponentStyle.rewrite_of_not_mem (by decide)

end Double

end DualHessian
