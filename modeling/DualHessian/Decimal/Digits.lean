/-!
# Decimal digits

`decimalDigits n` are the decimal digits of `n`, the highest first. Long numbers are cut in halves
until single digits are left, which takes far fewer long divisions than one division per digit. The
result is that of division by ten: `decimalDigits_eq` says that the digits are `Nat.toDigits 10 n`.
-/

namespace DualHessian

/-- The `k` last decimal digits of `n`, the highest first. -/
def lastDigits : Nat → Nat → List Char
  | 0, _ => []
  | k + 1, n => lastDigits k (n / 10) ++ [Nat.digitChar (n % 10)]

/-- The digits left of a cut are those of the quotient. -/
theorem lastDigits_add (a b n : Nat) :
    lastDigits (a + b) n = lastDigits a (n / Nat.pow 10 b) ++ lastDigits b n := by
  induction b generalizing n with
  | zero => simp [lastDigits, Nat.pow_eq]
  | succ b ih =>
    have quotient : n / 10 / Nat.pow 10 b = n / Nat.pow 10 (b + 1) := by
      rw [Nat.div_div_eq_div_mul]
      exact congrArg (n / ·) (Nat.mul_comm 10 (Nat.pow 10 b))
    rw [← Nat.add_assoc, lastDigits, lastDigits, ih, quotient, List.append_assoc]

/-- The digits right of a cut are those of the remainder. -/
theorem lastDigits_mod (k n : Nat) : lastDigits k (n % Nat.pow 10 k) = lastDigits k n := by
  induction k generalizing n with
  | zero => rfl
  | succ k ih =>
    have power : Nat.pow 10 (k + 1) = 10 * Nat.pow 10 k := Nat.mul_comm (Nat.pow 10 k) 10
    rw [lastDigits, lastDigits, power, Nat.mod_mul_right_div_self, Nat.mod_mul_right_mod, ih]

/-- Zero has only zeros as its last digits. -/
theorem lastDigits_zero (k : Nat) : lastDigits k 0 = List.replicate k '0' := by
  induction k with
  | zero => rfl
  | succ k ih => rw [lastDigits, Nat.zero_div, ih, List.replicate_succ']; rfl

/-- The `2 ^ j` last decimal digits of `n`, found in two halves. -/
def digitBlock : Nat → Nat → List Char
  | 0, n => [Nat.digitChar (n % 10)]
  | j + 1, n =>
    let unit := Nat.pow 10 (Nat.pow 2 j)
    digitBlock j (n / unit) ++ digitBlock j (n % unit)

/-- The two halves are the last digits. -/
theorem digitBlock_eq (j n : Nat) : digitBlock j n = lastDigits (Nat.pow 2 j) n := by
  induction j generalizing n with
  | zero => rfl
  | succ j ih =>
    have halves : Nat.pow 2 (j + 1) = Nat.pow 2 j + Nat.pow 2 j := Nat.mul_two (Nat.pow 2 j)
    rw [digitBlock, ih, ih, lastDigits_mod, halves, lastDigits_add]

/-- A digit that is not zero is not written as zero. -/
theorem digitChar_ne_zero {d : Nat} (positive : 0 < d) (small : d < 10) :
    Nat.digitChar d ≠ '0' := by
  have : ∀ d < 10, 0 < d → Nat.digitChar d ≠ '0' := by decide
  exact this d small positive

/-- Without the leading zeros, enough last digits are all digits. -/
theorem dropWhile_lastDigits {k n : Nat} (positive : 0 < n) (enough : n < Nat.pow 10 k) :
    (lastDigits k n).dropWhile (· == '0') = Nat.toDigits 10 n := by
  induction k generalizing n with
  | zero =>
    have : n < 1 := enough
    omega
  | succ k ih =>
    rw [lastDigits, List.dropWhile_append]
    by_cases single : n < 10
    · have digit : Nat.digitChar n ≠ '0' := digitChar_ne_zero positive single
      rw [Nat.div_eq_of_lt single, Nat.mod_eq_of_lt single, lastDigits_zero,
        Nat.toDigits_of_lt_base single]
      simp [digit]
    · have power : Nat.pow 10 (k + 1) = 10 * Nat.pow 10 k := Nat.mul_comm (Nat.pow 10 k) 10
      have below : n / 10 < Nat.pow 10 k := Nat.div_lt_of_lt_mul (power ▸ enough)
      rw [ih (by omega) below, Nat.toDigits_of_base_le (n := n) (by decide) (by omega)]
      simp [Nat.toDigits_ne_nil]

/-- An exponent `j` with `n < 10 ^ 2 ^ j`: three binary digits amount to less than a decimal one. -/
def blockExponent (n : Nat) : Nat := (n.log2 / 3 + 1).log2 + 1

/-- A number has no more decimal digits than its block. -/
theorem lt_pow_blockExponent (n : Nat) : n < Nat.pow 10 (Nat.pow 2 (blockExponent n)) := by
  let b := n.log2 / 3 + 1
  calc
    n < Nat.pow 2 (n.log2 + 1) := Nat.lt_log2_self
    _ ≤ Nat.pow 2 (3 * b) := Nat.pow_le_pow_right (by decide) (by omega)
    _ = Nat.pow (Nat.pow 2 3) b := Nat.pow_mul 2 3 b
    _ ≤ Nat.pow 10 b := Nat.pow_le_pow_left (by decide) b
    _ ≤ Nat.pow 10 (Nat.pow 2 (blockExponent n)) :=
      Nat.pow_le_pow_right (by decide) (Nat.le_of_lt Nat.lt_log2_self)

/-- The decimal digits of `n`, the highest first; zero has one. -/
def decimalDigits (n : Nat) : List Char :=
  if n = 0 then ['0'] else (digitBlock (blockExponent n) n).dropWhile (· == '0')

/-- The digits are those that division by ten gives. -/
theorem decimalDigits_eq (n : Nat) : decimalDigits n = Nat.toDigits 10 n := by
  unfold decimalDigits
  split
  · next zero => rw [zero]; rfl
  · next nonzero =>
    rw [digitBlock_eq]
    exact dropWhile_lastDigits (Nat.pos_of_ne_zero nonzero) (lt_pow_blockExponent n)

end DualHessian
