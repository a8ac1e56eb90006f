import DualHessian.Proofs.Numbers.Storage

/-!
# The laws of double precision

Doubles obey `DoubleLaws`. Every number has a `position` on a line, and numbers are compared by
their positions (`compare_eq`), so the laws of comparisons are those of a linear order in which
what is not a number has no place. What is special to rounding is the law of quotients,
`Below.div`: dividing by the same number keeps the order, for rounding and storing do.
-/

namespace DualHessian.Binary64

open Float.Model Float.Model.UnpackedFloat Magnitude Rounding

/-- The place of a number on the line: its side, with the infinities beyond all others, and its
exponent and its digits, which count backwards on the negative side. -/
def position : UnpackedFloat → Option (Int ×ₗ Int ×ₗ Int)
  | .notANumber => none
  | .infinity .negative => some (toLex (-2, toLex (0, 0)))
  | .finite .negative m e _ => some (toLex (-1, toLex (-e, -m)))
  | .zero _ => some (toLex (0, toLex (0, 0)))
  | .finite .positive m e _ => some (toLex (1, toLex (e, m)))
  | .infinity .positive => some (toLex (2, toLex (0, 0)))

private theorem le_of_side {i j : Int} (h : i < j) {a b : Int ×ₗ Int} :
    toLex (i, a) ≤ toLex (j, b) :=
  Prod.Lex.toLex_le_toLex.2 (.inl h)

private theorem compare_neg (a b : Int) : compare (-a) (-b) = (compare a b).swap := by
  rcases lt_trichotomy a b with h | rfl | h
  · rw [compare_lt_iff_lt.2 h, compare_gt_iff_gt.2 (Int.neg_lt_neg h)]
    rfl
  · rw [compare_eq_iff_eq.2 rfl, compare_eq_iff_eq.2 rfl]
    rfl
  · rw [compare_gt_iff_gt.2 h, compare_lt_iff_lt.2 (Int.neg_lt_neg h)]
    rfl

private theorem compare_natCast (m n : Nat) : compare (m : Int) n = compare m n := by
  rcases lt_trichotomy m n with h | rfl | h
  · rw [compare_lt_iff_lt.2 h, compare_lt_iff_lt.2 (Int.ofNat_lt.2 h)]
  · rw [compare_eq_iff_eq.2 rfl, compare_eq_iff_eq.2 rfl]
  · rw [compare_gt_iff_gt.2 h, compare_gt_iff_gt.2 (Int.ofNat_lt.2 h)]

/-- Numbers are compared by their places. -/
theorem compare_eq (u v : UnpackedFloat) : u.compare v =
    (position u).bind fun a => (position v).map fun b => compare a b := by
  rcases u with (_ | _) | _ | _ | ⟨_ | _, m, e, hm⟩ <;>
    rcases v with (_ | _) | _ | _ | ⟨_ | _, n, f, hn⟩ <;> try rfl
  · show some ((compare e f).then (compare m n)).swap =
      some ((compare (-e) (-f)).then (compare (-(m : Int)) (-n)))
    rw [compare_neg, compare_neg, compare_natCast, Ordering.swap_then]
  · show some ((compare e f).then (compare m n)) =
      some ((compare e f).then (compare (m : Int) n))
    rw [compare_natCast]

/-- A double is less than another one if its place is before the other one's. -/
theorem less_iff {x y : Float} : less x y = true ↔
    ∃ a ∈ position (partsOf x), ∃ b ∈ position (partsOf y), a < b := by
  have hless : less x y = ((partsOf x).compare (partsOf y) == some .lt) := by
    show decide (Float.lt x y = true) = _
    rw [Bool.decide_eq_true]
    show decide ((partsOf x).lt (partsOf y) = true) = _
    rw [Bool.decide_eq_true]
    rfl
  rw [hless, beq_iff_eq, compare_eq]
  simp only [Option.bind_eq_some_iff, Option.map_eq_some_iff, compare_lt_iff_lt, Option.mem_def]

/-- Doubles compare as equal if they have the same place. -/
theorem same_iff {x y : Float} : same x y = true ↔
    ∃ a ∈ position (partsOf x), a ∈ position (partsOf y) := by
  have hsame : same x y = ((partsOf x).compare (partsOf y) == some .eq) := rfl
  rw [hsame, beq_iff_eq, compare_eq]
  simp only [Option.bind_eq_some_iff, Option.map_eq_some_iff, compare_eq_iff_eq, Option.mem_def]
  refine exists_congr fun a => and_congr_right fun _ => ?_
  constructor
  · rintro ⟨_, hb, rfl⟩
    exact hb
  · intro hb
    exact ⟨a, hb, rfl⟩

/-- Both are numbers, and the first one is at most the second one. -/
def Below (u v : UnpackedFloat) : Prop := ∃ a ∈ position u, ∃ b ∈ position v, a ≤ b

/-- The order of doubles is the order of their places. -/
theorem atMost_iff {x y : Float} : AtMost x y ↔ Below (partsOf x) (partsOf y) := by
  unfold AtMost Below
  rw [less_iff, same_iff]
  constructor
  · rintro (⟨a, ha, b, hb, h⟩ | ⟨a, ha, hb⟩)
    · exact ⟨a, ha, b, hb, h.le⟩
    · exact ⟨a, ha, a, hb, le_rfl⟩
  · rintro ⟨a, ha, b, hb, h⟩
    rcases h.lt_or_eq with hlt | rfl
    · exact .inl ⟨a, ha, b, hb, hlt⟩
    · exact .inr ⟨a, ha, hb⟩

/-- The order of places is transitive. -/
theorem Below.trans {u v w : UnpackedFloat} (huv : Below u v) (hvw : Below v w) : Below u w := by
  obtain ⟨a, ha, b, hb, hab⟩ := huv
  obtain ⟨c, hc, d, hd, hcd⟩ := hvw
  obtain rfl := Option.mem_unique hb hc
  exact ⟨a, ha, d, hd, hab.trans hcd⟩

/-- Every number has a place. -/
theorem Below.refl {u : UnpackedFloat} (h : u ≠ .notANumber) : Below u u := by
  rcases u with (_ | _) | _ | _ | ⟨_ | _, m, e, hm⟩
  case notANumber => exact absurd rfl h
  all_goals exact ⟨_, rfl, _, rfl, le_rfl⟩

/-- The numbers among the doubles are those with a place. -/
theorem isNumber_iff {x : Float} : IsNumber x ↔ ∃ a, a ∈ position (partsOf x) := by
  unfold IsNumber
  rw [same_iff]
  exact exists_congr fun a => and_self_iff

/-- They are all but the one double that is not a number. -/
theorem isNumber_iff_ne {x : Float} : IsNumber x ↔ partsOf x ≠ .notANumber := by
  rw [isNumber_iff]
  rcases partsOf x with (_ | _) | _ | _ | ⟨_ | _, m, e, hm⟩ <;> simp [position]

/-- There are two infinities. -/
theorem isInfinite_iff {x : Float} : IsInfinite x ↔ ∃ s, partsOf x = .infinity s := by
  unfold IsInfinite
  rw [isNumber_iff_ne]
  show _ ∧ (partsOf x).isFinite = false ↔ _
  rcases partsOf x with s | _ | _ | _ <;> simp [UnpackedFloat.isFinite]

/-- The literal zero is the positive one. -/
theorem partsOf_zero : partsOf 0 = .zero .positive := rfl

/-- There are two zeros. -/
theorem isZero_iff {x : Float} : IsZero x ↔ ∃ s, partsOf x = .zero s := by
  unfold IsZero
  rw [same_iff, partsOf_zero]
  rcases partsOf x with (_ | _) | _ | _ | ⟨_ | _, m, e, hm⟩ <;> simp [position]

/-- A number that is not negative. Negative zero is none of the negative numbers. -/
def Nonnegative (u : UnpackedFloat) : Prop :=
  u = .infinity .positive ∨ (∃ s, u = .zero s) ∨ ∃ m e hm, u = .finite .positive m e hm

/-- Zero is at most the numbers that are not negative. -/
theorem zero_atMost_iff {x : Float} : AtMost 0 x ↔ Nonnegative (partsOf x) := by
  rw [atMost_iff, partsOf_zero]
  unfold Below Nonnegative
  rcases partsOf x with (_ | _) | _ | _ | ⟨_ | _, m, e, hm⟩ <;>
    simp [position, Prod.Lex.toLex_le_toLex, *]

/-! ## Storing -/

/-- Storing keeps the zeros. -/
theorem stored_zero (s : Sign) : stored (.zero s) = .zero s := by
  cases s <;> rfl

/-- Storing keeps the infinities. -/
theorem stored_infinity (s : Sign) : stored (.infinity s) = .infinity s := by
  cases s <;> rfl

/-- What is stored is a number if it was one. -/
theorem stored_eq_notANumber_iff {u : UnpackedFloat} :
    stored u = .notANumber ↔ u = .notANumber := by
  rcases u with s | _ | s | ⟨s, m, e, hm⟩
  · rw [stored_infinity]
  · exact iff_of_true rfl rfl
  · rw [stored_zero]
  · refine iff_of_false ?_ (by simp)
    rcases stored_finite_cases s m e hm with h | ⟨n, f, h⟩
    · rw [h]
      simp
    · exact h ▸ ofDigits_ne_notANumber s n f

/-- The parts of a double are stored as they are. -/
theorem stored_partsOf (x : Float) : stored (partsOf x) = partsOf x := by
  rcases hparts : partsOf x with s | _ | s | ⟨s, m, e, hm⟩
  · exact stored_infinity s
  · rfl
  · exact stored_zero s
  · obtain ⟨hcanonical, hlt⟩ := canonical_of_ofFields ((unpack_eq _).symm.trans hparts)
    rw [← ofDigits_of_pos s hm e, stored_ofDigits s hcanonical, if_neg fun h => by omega]

/-- The double that stores given parts is a number exactly if they are one. -/
theorem isNumber_stored_iff {x : Float} {u : UnpackedFloat} (hx : partsOf x = stored u) :
    IsNumber x ↔ u ≠ .notANumber := by
  rw [isNumber_iff_ne, hx, Ne, stored_eq_notANumber_iff]

/-- Digits on the positive side make no negative number. -/
theorem nonnegative_ofDigits (m : Nat) (e : Int) : Nonnegative (ofDigits .positive m e) := by
  rcases Nat.eq_zero_or_pos m with rfl | hm
  · exact .inr (.inl ⟨_, rfl⟩)
  · exact .inr (.inr ⟨m, e, hm, ofDigits_of_pos _ hm e⟩)

/-- Storing does not make a number negative. -/
theorem Nonnegative.stored {u : UnpackedFloat} (h : Nonnegative u) : Nonnegative (stored u) := by
  rcases h with rfl | ⟨s, rfl⟩ | ⟨m, e, hm, rfl⟩
  · exact .inl rfl
  · rw [stored_zero]
    exact .inr (.inl ⟨s, rfl⟩)
  · rcases stored_finite_cases .positive m e hm with h | ⟨n, f, h⟩
    · exact .inl h
    · rw [h]
      exact nonnegative_ofDigits n f

/-- What is stored of a number that is not negative is not negative. -/
theorem zero_atMost_stored {x : Float} {u : UnpackedFloat} (hx : partsOf x = stored u)
    (h : Nonnegative u) : AtMost 0 x := by
  rw [zero_atMost_iff, hx]
  exact h.stored

/-- Rounding on the positive side gives no negative number. -/
theorem nonnegative_roundWithAccuracy (m : Nat) (e : Int) (a : Accuracy) :
    Nonnegative (roundWithAccuracy .binary64 .positive m e a) :=
  nonnegative_ofDigits _ _

/-- Neither does normalizing. -/
theorem nonnegative_normalize {k : Int} (hk : 0 ≤ k) (e : Int) :
    Nonnegative (UnpackedFloat.normalize .binary64 k e .positive) := by
  unfold UnpackedFloat.normalize
  rcases hk.eq_or_lt with rfl | hpos
  · exact .inr (.inl ⟨_, rfl⟩)
  · rw [compare_gt_iff_gt.2 hpos]
    exact nonnegative_roundWithAccuracy _ _ _

/-- Sums of numbers that are not negative are not negative. -/
theorem nonnegative_add {u v : UnpackedFloat} (hu : Nonnegative u) (hv : Nonnegative v) :
    Nonnegative (UnpackedFloat.add .binary64 u v) := by
  rcases hu with rfl | ⟨s, rfl⟩ | ⟨m, e, hm, rfl⟩
  · rcases hv with rfl | ⟨t, rfl⟩ | ⟨n, f, hn, rfl⟩ <;> exact .inl rfl
  · rcases hv with rfl | ⟨t, rfl⟩ | ⟨n, f, hn, rfl⟩
    · exact .inl rfl
    · cases s <;> cases t <;> exact .inr (.inl ⟨_, rfl⟩)
    · exact .inr (.inr ⟨_, _, _, rfl⟩)
  · rcases hv with rfl | ⟨t, rfl⟩ | ⟨n, f, hn, rfl⟩
    · exact .inl rfl
    · exact .inr (.inr ⟨_, _, _, rfl⟩)
    · -- Both are written with the smaller exponent and added as integers.
      have hsum : UnpackedFloat.add .binary64 (.finite .positive m e hm)
            (.finite .positive n f hn) =
          UnpackedFloat.normalize .binary64 (((decreaseExponent m e (min e f)).1 : Int) +
            (decreaseExponent n f (min e f)).1) (min e f) .positive := rfl
      rw [hsum]
      exact nonnegative_normalize (by omega) _

/-- A sum with what is not a number is not a number. -/
theorem add_eq_notANumber {u v : UnpackedFloat} (h : u = .notANumber ∨ v = .notANumber) :
    UnpackedFloat.add .binary64 u v = .notANumber := by
  rcases h with rfl | rfl
  · rfl
  · rcases u with _ | _ | _ | _ <;> rfl

/-- Adding a number to zero gives that number, but may change the sign of a zero. -/
theorem zero_add_cases (u : UnpackedFloat) :
    UnpackedFloat.add .binary64 (.zero .positive) u = u ∨
      ∃ s t, u = .zero s ∧ UnpackedFloat.add .binary64 (.zero .positive) u = .zero t := by
  rcases u with s | _ | s | ⟨s, m, e, hm⟩
  case zero => cases s <;> exact .inr ⟨_, _, rfl, rfl⟩
  all_goals exact .inl rfl

/-- Adding onto zero changes nothing but the sign of a zero. -/
theorem sameNumber_zero_add (x : Float) : SameNumber (0 + x) x := by
  have hsum : partsOf (0 + x) =
      stored (UnpackedFloat.add .binary64 (.zero .positive) (partsOf x)) := rfl
  rcases zero_add_cases (partsOf x) with h | ⟨s, t, hx, h⟩
  · rw [h, stored_partsOf] at hsum
    by_cases hx : partsOf x = .notANumber
    · have hnone : ∀ y, partsOf y = partsOf x → ¬IsNumber y := fun y hy h =>
        isNumber_iff_ne.1 h (hy.trans hx)
      exact .inr ⟨hnone _ hsum, hnone _ rfl⟩
    · obtain ⟨a, ha, -⟩ := Below.refl hx
      exact .inl (same_iff.2 ⟨a, hsum ▸ ha, ha⟩)
  · rw [h, stored_zero] at hsum
    exact .inl (same_iff.2 ⟨toLex (0, toLex (0, 0)), by rw [hsum]; rfl, by rw [hx]; rfl⟩)

/-- A product with what is not a number is not a number. -/
theorem mul_eq_notANumber {u v : UnpackedFloat} (h : u = .notANumber ∨ v = .notANumber) :
    UnpackedFloat.mul .binary64 u v = .notANumber := by
  rcases h with rfl | rfl
  · rfl
  · rcases u with _ | _ | _ | _ <;> rfl

/-- Squares of numbers are not negative. -/
theorem nonnegative_mul_self {u : UnpackedFloat} (h : u ≠ .notANumber) :
    Nonnegative (UnpackedFloat.mul .binary64 u u) := by
  rcases u with (_ | _) | _ | s | ⟨_ | _, m, e, hm⟩
  case notANumber => exact absurd rfl h
  case infinity.negative | infinity.positive => exact .inl rfl
  case zero => exact .inr (.inl ⟨_, rfl⟩)
  -- The sign of a product with itself is positive, whatever it is rounded to.
  case finite.negative | finite.positive => exact nonnegative_roundWithAccuracy _ _ _

/-- Square roots of numbers that are not negative are not negative. -/
theorem nonnegative_sqrt {u : UnpackedFloat} (h : Nonnegative u) :
    Nonnegative (UnpackedFloat.sqrt .binary64 u) := by
  rcases h with rfl | ⟨s, rfl⟩ | ⟨m, e, hm, rfl⟩
  · exact .inl rfl
  · exact .inr (.inl ⟨s, rfl⟩)
  · exact nonnegative_roundWithAccuracy _ _ _

/-- Magnitudes of numbers are not negative. -/
theorem nonnegative_abs {u : UnpackedFloat} (h : u ≠ .notANumber) : Nonnegative u.abs := by
  rcases u with s | _ | s | ⟨s, m, e, hm⟩
  · exact .inl rfl
  · exact absurd rfl h
  · exact .inr (.inl ⟨_, rfl⟩)
  · exact .inr (.inr ⟨_, _, _, rfl⟩)

/-! ## Quotients -/

/-- A quotient of doubles is the rounded quotient of their values. -/
theorem div_finite (s t : Sign) {m n : Nat} {e f : Int} (hm : 0 < m) (hn : 0 < n) :
    UnpackedFloat.div .binary64 (.finite s m e hm) (.finite t n f hn) =
      rounded (s / t) (valueOf m e / valueOf n f) :=
  roundWithAccuracy_divCore (s / t) hm hn e f

/-- Quotients are no numbers if one operand is none, for two infinities and for two zeros. -/
theorem div_eq_notANumber_iff (u v : UnpackedFloat) :
    UnpackedFloat.div .binary64 u v = .notANumber ↔ u = .notANumber ∨ v = .notANumber ∨
      (∃ s, u = .infinity s) ∧ (∃ s, v = .infinity s) ∨
      (∃ s, u = .zero s) ∧ ∃ s, v = .zero s := by
  rcases u with s | _ | s | ⟨s, m, e, hm⟩ <;> rcases v with t | _ | t | ⟨t, n, f, hn⟩
  case finite.finite =>
    rw [div_finite]
    exact iff_of_false (ofDigits_ne_notANumber _ _ _) (by simp)
  all_goals simp [UnpackedFloat.div]

/-- Where the double of digits and an exponent is. -/
theorem position_stored_ofDigits {m : Nat} {e : Int} (h : Canonical m e) :
    position (stored (ofDigits .positive m e)) = some
      (if m = 0 then toLex ((0 : Int), toLex ((0 : Int), (0 : Int)))
        else if 972 ≤ e then toLex (2, toLex (0, 0)) else toLex (1, toLex (e, (m : Int)))) := by
  rw [stored_ofDigits _ h]
  rcases Nat.eq_zero_or_pos m with rfl | hm
  · rw [if_pos rfl, if_neg fun h => h.1 rfl]
    rfl
  · rw [if_neg hm.ne']
    by_cases he : 972 ≤ e
    · rw [if_pos he, if_pos ⟨hm.ne', he⟩]
      rfl
    · rw [if_neg he, if_neg fun h => he h.2, ofDigits_of_pos _ hm]
      rfl

/-- Rounding and storing keep the order. -/
theorem below_stored_rounded {x y : Rat} (hx : 0 < x) (h : x ≤ y) :
    Below (stored (rounded .positive x)) (stored (rounded .positive y)) := by
  have hxdigits := canonical_placesOf hx
  have hydigits := canonical_placesOf (hx.trans_le h)
  refine ⟨_, position_stored_ofDigits hxdigits, _, position_stored_ofDigits hydigits, ?_⟩
  have horder := placesOf_mono hx h
  generalize placesOf x = p at *
  generalize placesOf y = q at *
  obtain ⟨m, e⟩ := p
  obtain ⟨n, f⟩ := q
  simp only at *
  unfold Canonical at *
  by_cases hm : m = 0
  · -- Rounded to zero, which nothing on the positive side is less than.
    rw [if_pos hm]
    split
    · exact le_rfl
    · split
      · exact le_of_side (by decide)
      · exact le_of_side (by decide)
  -- Neither is zero: an exponent that is too large becomes infinite, and places are compared
  -- where both are stored.
  · have hn : n ≠ 0 := by omega
    rw [if_neg hm, if_neg hn]
    by_cases he : 972 ≤ e
    · have hf : 972 ≤ f := by omega
      rw [if_pos he, if_pos hf]
    · rw [if_neg he]
      split
      · exact le_of_side (by decide)
      · refine Prod.Lex.toLex_le_toLex.2 (.inr ⟨rfl, Prod.Lex.toLex_le_toLex.2 ?_⟩)
        rcases horder with hlt | ⟨heq, hle⟩
        · exact .inl hlt
        · exact .inr ⟨heq, Int.ofNat_le.2 hle⟩

/-- The same of doubles. -/
theorem number_div_iff {x y : Float} : IsNumber (x / y) ↔
    IsNumber x ∧ IsNumber y ∧ ¬(IsInfinite x ∧ IsInfinite y) ∧ ¬(IsZero x ∧ IsZero y) := by
  have hdiv : partsOf (x / y) = stored (UnpackedFloat.div .binary64 (partsOf x) (partsOf y)) := rfl
  rw [isNumber_stored_iff hdiv, Ne, div_eq_notANumber_iff, isNumber_iff_ne, isNumber_iff_ne,
    isInfinite_iff, isInfinite_iff, isZero_iff, isZero_iff]
  simp only [not_or, ne_eq]

/-- The quotient of a number that is not negative and one that is positive is not negative. -/
theorem nonnegative_div {u v : UnpackedFloat} (hu : Nonnegative u) (hv : Nonnegative v)
    (hzero : ∀ s, v ≠ .zero s) (hdefined : UnpackedFloat.div .binary64 u v ≠ .notANumber) :
    Nonnegative (UnpackedFloat.div .binary64 u v) := by
  rcases hv with rfl | ⟨t, rfl⟩ | ⟨n, f, hn, rfl⟩
  · rcases hu with rfl | ⟨s, rfl⟩ | ⟨m, e, hm, rfl⟩
    · exact absurd rfl hdefined
    · exact .inr (.inl ⟨_, rfl⟩)
    · exact .inr (.inl ⟨_, rfl⟩)
  · exact absurd rfl (hzero t)
  · rcases hu with rfl | ⟨s, rfl⟩ | ⟨m, e, hm, rfl⟩
    · exact .inl rfl
    · exact .inr (.inl ⟨_, rfl⟩)
    · rw [div_finite]
      exact nonnegative_ofDigits _ _

/-- Both zeros are at most every number that is not negative. -/
theorem below_of_nonnegative {u : UnpackedFloat} (s : Sign) (h : Nonnegative u) :
    Below (.zero s) u := by
  rcases h with rfl | ⟨t, rfl⟩ | ⟨m, e, hm, rfl⟩
  · exact ⟨_, rfl, _, rfl, le_of_side (by decide)⟩
  · exact ⟨_, rfl, _, rfl, le_rfl⟩
  · exact ⟨_, rfl, _, rfl, le_of_side (by decide)⟩

/-- Every number is at most the positive infinity. -/
theorem below_infinity {u : UnpackedFloat} (h : u ≠ .notANumber) :
    Below u (.infinity .positive) := by
  rcases u with (_ | _) | _ | _ | ⟨_ | _, m, e, hm⟩
  case notANumber => exact absurd rfl h
  case infinity.positive => exact ⟨_, rfl, _, rfl, le_rfl⟩
  all_goals exact ⟨_, rfl, _, rfl, le_of_side (by decide)⟩

/-- Of two numbers in order that are not negative, the first one is zero, the second one is
infinite, or their digits are in order. -/
theorem Below.cases {u v : UnpackedFloat} (hu : Nonnegative u) (hv : Nonnegative v)
    (h : Below u v) : (∃ s, u = .zero s) ∨ v = .infinity .positive ∨
      ∃ m e hm n f hn, u = .finite .positive m e hm ∧ v = .finite .positive n f hn ∧
        (e < f ∨ e = f ∧ m ≤ n) := by
  rcases hu with rfl | ⟨s, rfl⟩ | ⟨m, e, hm, rfl⟩
  · rcases hv with rfl | ⟨t, rfl⟩ | ⟨n, f, hn, rfl⟩
    · exact .inr (.inl rfl)
    · simp [Below, position, Prod.Lex.toLex_le_toLex] at h
    · simp [Below, position, Prod.Lex.toLex_le_toLex] at h
  · exact .inl ⟨s, rfl⟩
  · rcases hv with rfl | ⟨t, rfl⟩ | ⟨n, f, hn, rfl⟩
    · exact .inr (.inl rfl)
    · simp [Below, position, Prod.Lex.toLex_le_toLex] at h
    · refine .inr (.inr ⟨m, e, hm, n, f, hn, rfl, rfl, ?_⟩)
      simpa [Below, position, Prod.Lex.toLex_le_toLex] using h

/-- Dividing by the same number and storing keeps the order of numbers that are not negative. -/
theorem Below.div {x y w : UnpackedFloat} (hxy : Below x y) (hx : Nonnegative x)
    (hy : Nonnegative y)
    (hxdigits : ∀ s m e hm, x = .finite s m e hm → Canonical m e)
    (hydigits : ∀ s m e hm, y = .finite s m e hm → Canonical m e) (hw : Nonnegative w)
    (hxw : UnpackedFloat.div .binary64 x w ≠ .notANumber)
    (hyw : UnpackedFloat.div .binary64 y w ≠ .notANumber) :
    Below (Binary64.stored (UnpackedFloat.div .binary64 x w))
      (Binary64.stored (UnpackedFloat.div .binary64 y w)) := by
  have hxstored : Binary64.stored (UnpackedFloat.div .binary64 x w) ≠ .notANumber :=
    fun h => hxw (stored_eq_notANumber_iff.1 h)
  -- Several cases end with two quotients that are the same.
  have hsame : UnpackedFloat.div .binary64 x w = UnpackedFloat.div .binary64 y w →
      Below (Binary64.stored (UnpackedFloat.div .binary64 x w))
        (Binary64.stored (UnpackedFloat.div .binary64 y w)) := by
    intro h
    rw [← h]
    exact .refl hxstored
  rcases cases hx hy hxy with ⟨s, rfl⟩ | rfl | ⟨m, e, hm, n, f, hn, rfl, rfl, horder⟩
  · -- The first quotient is zero.
    have hnonzero : ∀ t, w ≠ .zero t := by
      rintro t rfl
      exact hxw rfl
    have hquotient : ∃ t, UnpackedFloat.div .binary64 (.zero s) w = .zero t := by
      rcases hw with rfl | ⟨t, rfl⟩ | ⟨k, g, hk, rfl⟩
      · exact ⟨_, rfl⟩
      · exact absurd rfl (hnonzero t)
      · exact ⟨_, rfl⟩
    obtain ⟨t, ht⟩ := hquotient
    rw [ht, stored_zero]
    exact below_of_nonnegative t (nonnegative_div hy hw hnonzero hyw).stored
  · -- The second quotient is infinite.
    rcases hw with rfl | ⟨t, rfl⟩ | ⟨k, g, hk, rfl⟩
    · exact absurd rfl hyw
    · -- So is the first one then, with the sign of the zero.
      rcases hx with rfl | ⟨s, rfl⟩ | ⟨m, e, hm, rfl⟩
      · exact hsame rfl
      · exact absurd rfl hxw
      · exact hsame rfl
    · have hinfinite : Binary64.stored (UnpackedFloat.div .binary64 (.infinity .positive)
          (.finite .positive k g hk)) = .infinity .positive := stored_infinity .positive
      rw [hinfinite]
      exact below_infinity hxstored
  · -- Only quotients of finite numbers by finite numbers are rounded.
    rcases hw with rfl | ⟨t, rfl⟩ | ⟨k, g, hk, rfl⟩
    · exact hsame rfl
    · exact hsame rfl
    · have hle : valueOf m e / valueOf k g ≤ valueOf n f / valueOf k g := by
        refine div_le_div_of_nonneg_right ?_ (valueOf_pos hk g).le
        exact valueOf_mono (hxdigits _ _ _ _ rfl) (hydigits _ _ _ _ rfl) horder
      rw [div_finite, div_finite]
      exact below_stored_rounded (div_pos (valueOf_pos hm e) (valueOf_pos hk g)) hle

/-! ## The laws -/

/-- The larger one of two doubles, by comparisons: what is not a number gives way. -/
theorem larger_eq_ite (x y : Float) :
    larger x y = if less x y || !same x x then y else x := rfl

/-- Doubles obey the laws. -/
instance : DoubleLaws Float where
  number_of_less h := by
    obtain ⟨a, ha, b, hb, _⟩ := less_iff.1 h
    exact ⟨isNumber_iff.2 ⟨a, ha⟩, isNumber_iff.2 ⟨b, hb⟩⟩
  number_of_same h := by
    obtain ⟨a, ha, hb⟩ := same_iff.1 h
    exact ⟨isNumber_iff.2 ⟨a, ha⟩, isNumber_iff.2 ⟨a, hb⟩⟩
  atMost_of_not_less hx hy h := by
    obtain ⟨a, ha⟩ := isNumber_iff.1 hx
    obtain ⟨b, hb⟩ := isNumber_iff.1 hy
    refine atMost_iff.2 ⟨a, ha, b, hb, not_lt.1 fun hlt => ?_⟩
    rw [less_iff.2 ⟨b, hb, a, ha, hlt⟩] at h
    cases h
  atMost_trans hxy hyz := atMost_iff.2 ((atMost_iff.1 hxy).trans (atMost_iff.1 hyz))
  same_of_atMost hxy hyx := by
    obtain ⟨a, ha, b, hb, hab⟩ := atMost_iff.1 hxy
    obtain ⟨c, hc, d, hd, hcd⟩ := atMost_iff.1 hyx
    obtain rfl := Option.mem_unique hb hc
    obtain rfl := Option.mem_unique ha hd
    obtain rfl := hab.antisymm hcd
    exact same_iff.2 ⟨a, ha, hb⟩
  larger_eq x y := by
    rw [larger_eq_ite]
    split
    · exact .inr rfl
    · exact .inl rfl
  atMost_larger_left {x} y hx := by
    rw [larger_eq_ite]
    split
    · rename_i h
      rw [hx, Bool.not_true, Bool.or_false] at h
      exact .inl h
    · exact .inr hx
  atMost_larger_right x {y} hy := by
    rw [larger_eq_ite]
    split
    · exact .inr hy
    · rename_i h
      rw [Bool.or_eq_true, not_or, Bool.not_eq_true', Bool.not_eq_false] at h
      obtain ⟨a, ha⟩ := isNumber_iff.1 h.2
      obtain ⟨b, hb⟩ := isNumber_iff.1 hy
      exact atMost_iff.2 ⟨b, hb, a, ha, not_lt.1 fun hlt => h.1 (less_iff.2 ⟨a, ha, b, hb, hlt⟩)⟩
  finite_zero := ⟨rfl, rfl⟩
  zero_atMost_one := .inl (by decide +kernel)
  add_nonneg hx hy :=
    zero_atMost_stored rfl (nonnegative_add (zero_atMost_iff.1 hx) (zero_atMost_iff.1 hy))
  number_of_add {x y} h := by
    have hsum : UnpackedFloat.add .binary64 (partsOf x) (partsOf y) ≠ .notANumber :=
      (isNumber_stored_iff rfl).1 h
    rw [isNumber_iff_ne, isNumber_iff_ne]
    exact ⟨fun hnone => hsum (add_eq_notANumber (.inl hnone)),
      fun hnone => hsum (add_eq_notANumber (.inr hnone))⟩
  zero_atMost_neg := .inr (by decide +kernel)
  mul_self_nonneg h := zero_atMost_stored rfl (nonnegative_mul_self (isNumber_iff_ne.1 h))
  number_of_mul {x y} h := by
    have hproduct : UnpackedFloat.mul .binary64 (partsOf x) (partsOf y) ≠ .notANumber :=
      (isNumber_stored_iff rfl).1 h
    rw [isNumber_iff_ne, isNumber_iff_ne]
    exact ⟨fun hnone => hproduct (mul_eq_notANumber (.inl hnone)),
      fun hnone => hproduct (mul_eq_notANumber (.inr hnone))⟩
  abs_nonneg h := zero_atMost_stored rfl (nonnegative_abs (isNumber_iff_ne.1 h))
  sqrt_nonneg h := zero_atMost_stored rfl (nonnegative_sqrt (zero_atMost_iff.1 h))
  number_div_iff := number_div_iff
  div_atMost_div {x y z} hx hxy hz hxz hyz := by
    have hy : AtMost 0 y := atMost_iff.2 ((atMost_iff.1 hx).trans (atMost_iff.1 hxy))
    rw [zero_atMost_iff] at hx hy hz
    rw [atMost_iff] at hxy ⊢
    exact hxy.div hx hy (fun _ _ _ _ => canonical_of_partsOf) (fun _ _ _ _ => canonical_of_partsOf)
      hz ((isNumber_stored_iff rfl).1 hxz) ((isNumber_stored_iff rfl).1 hyz)

end DualHessian.Binary64
