import DualHessian.Proofs.Numbers.Doubles
import DualHessian.Proofs.Numbers.Rounding
import Mathlib

/-!
# Stored doubles

A double is stored in three fields, for the sign, the exponent and the digits behind the first one.
The parts of the double that stores given parts are `stored`: digits and an exponent as rounding
leaves them are read back as they were, unless the exponent is too large and they turn into an
infinity (`stored_ofDigits`).
-/

namespace DualHessian.Binary64

open Float.Model Float.Model.UnpackedFloat Magnitude Rounding

/-- The parts of a double. -/
def partsOf (x : Float) : UnpackedFloat := x.toModel.unpack

/-- The parts of the double that stores given parts. -/
def stored (u : UnpackedFloat) : UnpackedFloat := (Float.Model.pack u).unpack

/-- What the fields of a double mean. -/
def ofFields (s : Sign) (e : BitVec 11) (m : BitVec 52) : UnpackedFloat :=
  if e = -1#11 then if m = 0#52 then .infinity s else .notANumber
  else if e = 0#11 then ofDigits s m.toNat (-1074)
  else ofDigits s (2 ^ 52 + m.toNat) (e.toNat - 1075)

private theorem finite_congr {s : Sign} {m n : Nat} {e f : Int} {hm : 0 < m} {hn : 0 < n}
    (hdigits : m = n) (hexponent : e = f) :
    UnpackedFloat.finite s m e hm = .finite s n f hn := by
  subst hdigits hexponent
  rfl

/-- The parts of a double are read from its fields. -/
theorem unpack_eq (b : BitVec 64) :
    UnpackedFloat.unpack .binary64 b =
      ofFields (.ofBitVec (@unpackSign .binary64 b))
        (@unpackExponent .binary64 b) (@unpackMantissa .binary64 b) := by
  unfold UnpackedFloat.unpack ofFields
  by_cases hlast : @unpackExponent .binary64 b = -1#11
  · rw [if_pos hlast, if_pos hlast]
  · rw [if_neg hlast, if_neg hlast]
    by_cases hfirst : @unpackExponent .binary64 b = 0#11
    · rw [if_pos hfirst, if_pos hfirst]
      by_cases hm : @unpackMantissa .binary64 b = 0#52
      · rw [dif_pos hm, hm]
        rfl
      · have hpos : 0 < (@unpackMantissa .binary64 b).toNat :=
          Nat.pos_of_ne_zero fun h => hm (BitVec.eq_of_toNat_eq h)
        rw [dif_neg hm, ofDigits_of_pos _ hpos, hfirst]
        rfl
    · have hdigits : (1#1 ++ @unpackMantissa .binary64 b).toNat =
          2 ^ 52 + (@unpackMantissa .binary64 b).toNat := by
        rw [BitVec.toNat_append, Nat.shiftLeft_eq, Nat.mul_comm]
        exact (Nat.two_pow_add_eq_or_of_lt (@unpackMantissa .binary64 b).isLt 1).symm
      rw [if_neg hfirst, if_neg hfirst, ofDigits_of_pos _ (by omega)]
      exact finite_congr hdigits rfl

/-- Reading fields that were written. -/
theorem unpack_packComponents (s : Sign) (e : BitVec 11) (m : BitVec 52) :
    UnpackedFloat.unpack .binary64 (packComponents .binary64 s e m) = ofFields s e m := by
  have hsign : Sign.ofBitVec (unpackSign (packComponents .binary64 s e m)) = s := by
    rw [unpackSign_packComponents, Sign.ofBitVec_toBitVec]
  rw [unpack_eq]
  exact congr (congr (congrArg ofFields hsign) unpackExponent_packComponents)
    unpackMantissa_packComponents

/-- The digits of a finite number are as rounding leaves them, and its exponent is small enough to
be stored. -/
theorem canonical_of_ofFields {s t : Sign} {e : BitVec 11} {m : BitVec 52} {n : Nat} {f : Int}
    {hn : 0 < n} (h : ofFields s e m = .finite t n f hn) : Canonical n f ∧ f < 972 := by
  have hdigits : ∀ {k : Nat} {g : Int}, Canonical k g ∧ g < 972 →
      ofDigits s k g = .finite t n f hn → Canonical n f ∧ f < 972 := by
    intro k g hcanonical heq
    rcases Nat.eq_zero_or_pos k with rfl | hpos
    · cases heq
    · rw [ofDigits_of_pos s hpos] at heq
      injection heq with _ hk hg
      rwa [← hk, ← hg]
  have hm : m.toNat < 2 ^ 52 := m.isLt
  unfold ofFields at h
  by_cases hlast : e = -1#11
  · rw [if_pos hlast] at h
    by_cases hzero : m = 0#52
    · rw [if_pos hzero] at h
      cases h
    · rw [if_neg hzero] at h
      cases h
  · rw [if_neg hlast] at h
    by_cases hfirst : e = 0#11
    · rw [if_pos hfirst] at h
      exact hdigits ⟨⟨by omega, le_rfl, .inr rfl⟩, by omega⟩ h
    · -- The first digit is not stored, it is one.
      rw [if_neg hfirst] at h
      have hpos : e.toNat ≠ 0 := fun hzero => hfirst (BitVec.eq_of_toNat_eq hzero)
      have hmax : e.toNat ≠ 2047 := fun hmax => hlast (BitVec.eq_of_toNat_eq hmax)
      have hlt : e.toNat < 2 ^ 11 := e.isLt
      exact hdigits ⟨⟨by omega, by omega, .inl (by omega)⟩, by omega⟩ h

/-- The digits and the exponent of a double are as rounding leaves them. -/
theorem canonical_of_partsOf {x : Float} {s : Sign} {m : Nat} {e : Int} {hm : 0 < m}
    (h : partsOf x = .finite s m e hm) : Canonical m e :=
  (canonical_of_ofFields ((unpack_eq _).symm.trans h)).1

/-! ## Storing -/

/-- What fields mean if the exponent is not the one of infinities. -/
theorem ofFields_ofNat (s : Sign) {k : Nat} (hk : k < 2047) (m : BitVec 52) :
    ofFields s (BitVec.ofNat 11 k) m =
      if k = 0 then ofDigits s m.toNat (-1074) else ofDigits s (2 ^ 52 + m.toNat) (k - 1075) := by
  have hexponent : (BitVec.ofNat 11 k).toNat = k := by
    rw [BitVec.toNat_ofNat, Nat.mod_eq_of_lt]
    omega
  have hlast : BitVec.ofNat 11 k ≠ -1#11 := by
    intro h
    have hmax : (-1#11).toNat = 2047 := rfl
    rw [← h, hexponent] at hmax
    omega
  rw [ofFields, if_neg hlast, hexponent]
  refine if_congr ?_ rfl rfl
  constructor
  · intro h
    rw [h] at hexponent
    exact hexponent.symm
  · rintro rfl
    rfl

/-- What is read back after digits and an exponent are stored. Numbers that have all 53 places are
stored without the first one. -/
theorem stored_finite (s : Sign) (m : Nat) (e : Int) (hm : 0 < m) :
    stored (.finite s m e hm) =
      if 972 ≤ e then .infinity s
      else if m.log2 + 1 = 53 ∧ (e + 1075).toNat ≠ 0 then
        ofDigits s (2 ^ 52 + m % 2 ^ 52) ((e + 1075).toNat - 1075)
      else ofDigits s (m % 2 ^ 52) (-1074) := by
  have hpack : stored (.finite s m e hm) =
      UnpackedFloat.unpack .binary64 (UnpackedFloat.pack .binary64 (.finite s m e hm)) := rfl
  have hbias : e + Format.binary64.exponentBias + Format.binary64.mantissaBitsWithoutImplicit =
      e + 1075 := by
    rw [add_assoc]
    rfl
  have hmantissa : (BitVec.ofNat 52 m).toNat = m % 2 ^ 52 := BitVec.toNat_ofNat ..
  rw [hpack]
  unfold UnpackedFloat.pack
  dsimp only
  rw [hbias]
  -- The largest biased exponent is reserved for the infinities.
  by_cases h : 972 ≤ e
  · have hlarge : 2 ^ 11 ≤ (e + 1075).toNat + 1 := by omega
    rw [if_pos h, if_pos hlarge]
    cases s <;> rfl
  · have hsmall : ¬2 ^ 11 ≤ (e + 1075).toNat + 1 := by omega
    rw [if_neg h, if_neg hsmall]
    -- Only numbers that have all their places are stored with a biased exponent other than zero.
    by_cases hnormal : m.log2 + 1 = 53
    · have hbits : m.log2 + 1 = Format.binary64.mantissaBits := hnormal
      rw [if_pos hbits, unpack_packComponents, ofFields_ofNat s (by omega), hmantissa]
      by_cases hfirst : (e + 1075).toNat = 0
      · rw [if_pos hfirst, if_neg fun h => h.2 hfirst]
      · rw [if_neg hfirst, if_pos ⟨hnormal, hfirst⟩]
    · have hbits : ¬m.log2 + 1 = Format.binary64.mantissaBits := hnormal
      have hzero : ofFields s (BitVec.ofNat 11 0) (BitVec.ofNat 52 m) =
          ofDigits s (m % 2 ^ 52) (-1074) := by
        rw [ofFields_ofNat s (by decide), if_pos rfl, hmantissa]
      rw [if_neg hbits, unpack_packComponents, if_neg fun h => hnormal h.1]
      exact hzero

/-- Digits and an exponent are stored as they are, unless the exponent is too large. -/
theorem stored_ofDigits (s : Sign) {m : Nat} {e : Int} (h : Canonical m e) :
    stored (ofDigits s m e) = if m ≠ 0 ∧ 972 ≤ e then .infinity s else ofDigits s m e := by
  obtain ⟨hdigits, hleast, hnormal⟩ := h
  rcases Nat.eq_zero_or_pos m with rfl | hm
  · rw [if_neg fun h => h.1 rfl, ofDigits_zero]
    cases s <;> rfl
  · have hparts : ofDigits s m e = .finite s m e hm := ofDigits_of_pos s hm e
    rw [hparts, stored_finite]
    by_cases hlarge : 972 ≤ e
    · rw [if_pos hlarge, if_pos ⟨hm.ne', hlarge⟩]
    · have hfits : ¬(m ≠ 0 ∧ 972 ≤ e) := fun h => hlarge h.2
      rw [if_neg hlarge, if_neg hfits, ← hparts]
      by_cases hlog : m.log2 + 1 = 53
      · -- All places are there, and the first one comes back.
        have hle : 2 ^ 52 ≤ m := by
          have h := Nat.log2_self_le hm.ne'
          rwa [show m.log2 = 52 by omega] at h
        have hmantissa : 2 ^ 52 + m % 2 ^ 52 = m := by omega
        have hexponent : ((e + 1075).toNat : Int) - 1075 = e := by omega
        rw [if_pos ⟨hlog, by omega⟩, hmantissa, hexponent]
      · -- The last place is the least one of all.
        have hlt : m < 2 ^ 52 := by
          by_contra hge
          have hlow := (Nat.le_log2 hm.ne').2 (not_lt.1 hge)
          have hhigh := (Nat.log2_lt hm.ne').2 hdigits
          omega
        have hexponent : e = -1074 := hnormal.resolve_left (not_le.2 hlt)
        rw [if_neg fun h => hlog h.1, Nat.mod_eq_of_lt hlt, hexponent]

/-- Whatever digits are stored, the result is a number and has their sign. -/
theorem stored_finite_cases (s : Sign) (m : Nat) (e : Int) (hm : 0 < m) :
    stored (.finite s m e hm) = .infinity s ∨
      ∃ n f, stored (.finite s m e hm) = ofDigits s n f := by
  rw [stored_finite]
  split
  · exact .inl rfl
  · right
    split
    · exact ⟨_, _, rfl⟩
    · exact ⟨_, _, rfl⟩

end DualHessian.Binary64
