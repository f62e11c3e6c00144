import WeightPolyhedron.Proofs.Scalar.Double
import WeightPolyhedron.Proofs.Scalar.Rounding

/-!
What the operations on unpacked numbers compute. Each of them forms the exact result, with the
digits that are too many reduced to two bits, and rounds it once: the outcome is the exact result as
`rounded` has it, in the one form in which it can be packed.
-/

namespace WeightPolyhedron.Double

open Float.Model (UnpackedFloat Format totalExponent)
open Float.Model.UnpackedFloat

variable {em : ExtendedMantissa} {x y : ℚ} {s : Sign} {m : ℕ} {e : ℤ} {acc : Accuracy}
  {u w : UnpackedFloat}

/-- What a mantissa and its two residual bits say of a number. -/
def Represents (em : ExtendedMantissa) (x : ℚ) : Prop :=
  match em.roundBit, em.stickyBit with
  | false, false => x = em.mantissa
  | false, true => (em.mantissa : ℚ) < x ∧ x < em.mantissa + 1 / 2
  | true, false => x = em.mantissa + 1 / 2
  | true, true => (em.mantissa : ℚ) + 1 / 2 < x ∧ x < em.mantissa + 1

theorem Represents.bounds (h : Represents em x) : (em.mantissa : ℚ) ≤ x ∧ x < em.mantissa + 1 := by
  obtain ⟨m, r, s⟩ := em
  cases r <;> cases s <;> simp only [Represents] at h
  · exact ⟨h.ge, by linarith⟩
  · exact ⟨h.1.le, by linarith⟩
  · exact ⟨by linarith, by linarith⟩
  · exact ⟨by linarith, h.2⟩

/-- The mantissa is rounded as the number is. -/
theorem Represents.roundedMantissa (h : Represents em x) :
    (em.roundedMantissa : ℤ) = nearestEven x := by
  symm
  rw [nearestEven_eq_iff]
  obtain ⟨m, r, s⟩ := em
  cases r <;> cases s <;>
    simp only [Represents, ExtendedMantissa.roundedMantissa, ExtendedMantissa.accuracy,
      Accuracy.roundToNearestEven] at h ⊢
  · exact .inl (by simp [h])
  · refine .inl ?_
    rw [Int.cast_natCast, abs_sub_comm, abs_of_pos (by linarith)]
    linarith
  · refine .inr ⟨?_, by omega⟩
    rcases Nat.mod_two_eq_zero_or_one m with hm | hm <;> rw [hm, h] <;> push_cast
    · rw [abs_sub_comm, abs_of_pos] <;> linarith
    · rw [abs_of_pos] <;> linarith
  · refine .inl ?_
    push_cast
    rw [abs_of_pos (by linarith)]
    linarith

theorem Represents.shiftRightOne (h : Represents em x) : Represents em.shiftRightOne (x / 2) := by
  obtain ⟨m, r, s⟩ := em
  have hm : ((m % 2 : ℕ) : ℚ) + 2 * ((m / 2 : ℕ) : ℚ) = m := by exact_mod_cast Nat.mod_add_div m 2
  have hodd : ((1 : ℕ) != 0) = true := rfl
  -- the last digit becomes the round bit, and both residual bits the sticky one
  rcases Nat.mod_two_eq_zero_or_one m with hmod | hmod <;> rw [hmod] at hm <;> push_cast at hm <;>
    cases r <;> cases s <;> simp only [Represents] at h <;>
    simp only [Represents, ExtendedMantissa.shiftRightOne, hmod, hodd,
      bne_self_eq_false, Bool.or_true, Bool.or_false] <;>
    first | linarith | exact ⟨by linarith, by linarith⟩

theorem Represents.shiftRight (h : Represents em x) (k : ℕ) :
    Represents (em >>> k) (x / 2 ^ k) := by
  change Represents (k.repeat ExtendedMantissa.shiftRightOne em) _
  induction k with
  | zero => simpa [Nat.repeat] using h
  | succ k ih =>
    rw [Nat.repeat, pow_succ, ← div_div]
    exact ih.shiftRightOne

def signed (s : Sign) (x : ℚ) : ℚ :=
  match s with
  | .positive => x
  | .negative => -x

def value? : UnpackedFloat → Option ℚ
  | .zero _ => some 0
  | .finite s m e _ => some (signed s (m * 2 ^ e))
  | .infinity _ | .notANumber => none

/-- The form in which numbers are packed: the mantissa has 53 digits, or fewer with the least
exponent. -/
def Canonical : UnpackedFloat → Prop
  | .finite _ m e _ => m < 2 ^ 53 ∧ -1074 ≤ e ∧ (2 ^ 52 ≤ m ∨ e = -1074)
  | .zero _ | .infinity _ | .notANumber => True

def IsRounded (u : UnpackedFloat) (x : ℚ) : Prop := Canonical u ∧ value? u = some (rounded x)

theorem rounded_signed (s : Sign) (x : ℚ) : rounded (signed s x) = signed s (rounded x) := by
  cases s with
  | positive => rfl
  | negative => exact rounded_neg x

theorem abs_signed (s : Sign) (x : ℚ) : |signed s x| = |x| := by
  cases s with
  | positive => rfl
  | negative => exact abs_neg x

theorem targetExponent_binary64 (e : ℤ) :
    Format.binary64.targetExponent e = max (e - 53) (-1074) := rfl

theorem ofMantissaAndAccuracy_mantissa (m : ℕ) (acc : Accuracy) :
    (ExtendedMantissa.ofMantissaAndAccuracy m acc).mantissa = m := by
  cases acc with
  | exact => rfl
  | inexact o => cases o <;> rfl

/-- A mantissa with more digits than needed is cut off at an exponent. -/
theorem shiftToExponent_spec {t : ℤ} (h : Represents (.ofMantissaAndAccuracy m acc) (x / 2 ^ e))
    (ht : e ≤ t) :
    (shiftToExponent m e acc t).2 = t ∧ Represents (shiftToExponent m e acc t).1 (x / 2 ^ t) := by
  obtain ⟨k, rfl⟩ := Int.le.dest ht
  have hk : (e + k - e).toNat = k := by omega
  simp only [shiftToExponent, hk, true_and]
  rw [two_zpow_add, zpow_natCast, ← div_div]
  exact h.shiftRight k

/-- The number has its 53 digits down to the exponent that the mantissa is cut off at, unless that
is the least one. -/
theorem digits_of_mantissa {t : ℤ} (h : Represents (.ofMantissaAndAccuracy m acc) (x / 2 ^ e))
    (ht : t = max (m.log2 + 1 + e - 53) (-1074)) (he : e ≤ t) :
    x < 2 ^ (t + 53) ∧ (t = -1074 ∨ 2 ^ (t + 52) ≤ x) := by
  obtain ⟨hle, hlt⟩ := h.bounds
  rw [ofMantissaAndAccuracy_mantissa] at hle hlt
  rw [le_div_iff₀ (two_zpow_pos e)] at hle
  rw [div_lt_iff₀ (two_zpow_pos e)] at hlt
  constructor
  · have hm : ((m : ℚ) + 1) ≤ 2 ^ ((m.log2 : ℤ) + 1) := by
      exact_mod_cast Nat.lt_log2_self (n := m)
    calc x < (m + 1) * 2 ^ e := hlt
      _ ≤ 2 ^ ((m.log2 : ℤ) + 1) * 2 ^ e := mul_le_mul_of_nonneg_right hm (two_zpow_pos e).le
      _ = 2 ^ ((m.log2 : ℤ) + 1 + e) := (two_zpow_add _ e).symm
      _ ≤ 2 ^ (t + 53) := two_zpow_le (by omega)
  · by_cases hleast : t = -1074
    · exact .inl hleast
    have hm : m ≠ 0 := by
      rintro rfl
      simp only [Nat.log2_zero] at ht
      omega
    have hpow : (2 : ℚ) ^ (m.log2 : ℤ) ≤ m := by exact_mod_cast Nat.log2_self_le hm
    right
    calc (2 : ℚ) ^ (t + 52) = 2 ^ ((m.log2 : ℤ) + e) := by congr 1; omega
      _ = 2 ^ (m.log2 : ℤ) * 2 ^ e := two_zpow_add _ e
      _ ≤ m * 2 ^ e := mul_le_mul_of_nonneg_right hpow (two_zpow_pos e).le
      _ ≤ x := hle

/-- Rounding may carry into a 54th digit, and then one more shift loses nothing. -/
theorem carry_spec {r : ℕ} {t : ℤ} (hr : r ≤ 2 ^ 53) (ht : -1074 ≤ t)
    (hfull : 2 ^ 52 ≤ r ∨ t = -1074) :
    ∃ k f, (shiftToTargetExponent .binary64 r t .exact).1.mantissa = k ∧
      (shiftToTargetExponent .binary64 r t .exact).2 = f ∧ (k : ℚ) * 2 ^ f = r * 2 ^ t ∧
      k < 2 ^ 53 ∧ -1074 ≤ f ∧ (2 ^ 52 ≤ k ∨ f = -1074) := by
  unfold shiftToTargetExponent
  rw [targetExponent_binary64, totalExponent]
  rcases hr.lt_or_eq with hlt | rfl
  · have hlog : r.log2 < 53 := by
      rcases Nat.eq_zero_or_pos r with rfl | hpos
      · decide
      · exact (Nat.log2_lt hpos.ne').2 hlt
    have hshift : (max ((r.log2 : ℤ) + 1 + t - 53) (-1074) - t).toNat = 0 := by omega
    refine ⟨r, t, ?_, ?_, rfl, hlt, ht, hfull⟩
    · rw [shiftToExponent, hshift]
      rfl
    · rw [shiftToExponent, hshift]
      simp
  · have hshift : (max (((2 ^ 53 : ℕ).log2 : ℤ) + 1 + t - 53) (-1074) - t).toNat = 1 := by
      rw [Nat.log2_two_pow]
      omega
    refine ⟨2 ^ 52, t + 1, ?_, ?_, ?_, by norm_num, by omega, .inl le_rfl⟩
    · rw [shiftToExponent, hshift]
      rfl
    · rw [shiftToExponent, hshift]
      simp
    · rw [two_zpow_add, zpow_one]
      push_cast
      ring

/-- The rounded mantissa has 53 digits, or one more after a carry, or fewer at the least
exponent. -/
theorem nearestEven_bounds {r : ℕ} {t : ℤ} (hr : (r : ℤ) = nearestEven (x / 2 ^ t))
    (hlt : x < 2 ^ (t + 53)) (hfull : t = -1074 ∨ 2 ^ (t + 52) ≤ x) :
    r ≤ 2 ^ 53 ∧ (2 ^ 52 ≤ r ∨ t = -1074) := by
  have hpos := two_zpow_pos t
  have hnear := abs_le.1 (abs_nearestEven_sub_le (x / 2 ^ t))
  rw [← hr, Int.cast_natCast] at hnear
  constructor
  · have hscaled : x / 2 ^ t < 2 ^ 53 := by
      rw [div_lt_iff₀ hpos, mul_comm]
      exact hlt.trans_eq (two_zpow_add t 53)
    have hr : (r : ℚ) < (2 ^ 53 + 1 : ℕ) := by
      push_cast
      linarith [hnear.2]
    exact Nat.le_of_lt_succ (by exact_mod_cast hr)
  · refine hfull.symm.imp_left fun hle => ?_
    have hscaled : 2 ^ 52 ≤ x / 2 ^ t := by
      rw [le_div_iff₀ hpos, mul_comm]
      exact (two_zpow_add t 52).symm.trans_le hle
    have hr : ((2 ^ 52 : ℕ) : ℚ) < r + 1 := by
      push_cast
      linarith [hnear.1]
    exact Nat.le_of_lt_succ (by exact_mod_cast hr)

/-- Rounding from digits enough, whichever are left out. -/
theorem isRounded_roundWithAccuracy (s : Sign) (hx : 0 ≤ x)
    (h : Represents (.ofMantissaAndAccuracy m acc) (x / 2 ^ e))
    (he : e ≤ max (m.log2 + 1 + e - 53) (-1074)) :
    IsRounded (roundWithAccuracy .binary64 s m e acc) (signed s x) := by
  generalize ht : max ((m.log2 : ℤ) + 1 + e - 53) (-1074) = t at he
  obtain ⟨hlt, hfull⟩ := digits_of_mantissa h ht.symm he
  obtain ⟨hexp, hrep⟩ := shiftToExponent_spec h he
  have hround := hrep.roundedMantissa
  have hvalue : rounded x = nearestEven (x / 2 ^ t) * 2 ^ t := by
    rcases hx.eq_or_lt with rfl | hpos
    · have hzero := nearestEven_intCast 0
      simp_all [rounded_zero]
    · have hplace : lastPlace x = t := lastPlace_eq hpos.ne' (by omega) (by rwa [abs_of_pos hpos])
        (by rwa [abs_of_pos hpos])
      rw [rounded, hplace]
  have hfirst : shiftToTargetExponent .binary64 m e acc = shiftToExponent m e acc t := by
    rw [shiftToTargetExponent, targetExponent_binary64, totalExponent, ht]
  unfold roundWithAccuracy
  rw [hfirst]
  simp only [hexp]
  generalize (shiftToExponent m e acc t).1.roundedMantissa = r at hround
  obtain ⟨hr, hfull⟩ := nearestEven_bounds hround hlt hfull
  obtain ⟨k, f, hk, hf, hcarry, hcanonical⟩ := carry_spec hr (by omega) hfull
  simp only [hk, hf]
  have hvalue : rounded x = k * 2 ^ f := by
    rw [hvalue, ← hround, Int.cast_natCast, hcarry]
  rw [IsRounded, rounded_signed, hvalue]
  split_ifs with hzero
  · subst hzero
    refine ⟨trivial, ?_⟩
    cases s <;> simp [value?, signed]
  · exact ⟨hcanonical, rfl⟩

theorem represents_exact (m : ℕ) : Represents (.ofMantissaAndAccuracy m .exact) m := rfl

theorem log2_shiftLeft (hm : 0 < m) (k : ℕ) : (m <<< k).log2 = m.log2 + k := by
  have hpos : 0 < 2 ^ k := Nat.two_pow_pos k
  rw [Nat.shiftLeft_eq, Nat.log2_eq_iff (Nat.mul_pos hm hpos).ne', Nat.pow_add]
  refine ⟨Nat.mul_le_mul_right _ (Nat.log2_self_le hm.ne'), ?_⟩
  rw [Nat.add_right_comm, Nat.pow_add]
  exact (Nat.mul_lt_mul_right hpos).2 Nat.lt_log2_self

/-- A mantissa takes as many digits as its exponent is decreased by. -/
theorem shiftLeft_mul_two_zpow (m k : ℕ) (e : ℤ) :
    ((m <<< k : ℕ) : ℚ) * 2 ^ (e - k) = m * 2 ^ e := by
  rw [Nat.shiftLeft_eq, Nat.cast_mul, mul_assoc, Nat.cast_pow, Nat.cast_ofNat, ← zpow_natCast,
    ← two_zpow_add, add_sub_cancel]

/-- Rounding of a mantissa with any exponent. -/
theorem isRounded_round (s : Sign) (hm : 0 < m) (e : ℤ) :
    IsRounded (UnpackedFloat.round .binary64 s m e) (signed s (m * 2 ^ e)) := by
  unfold UnpackedFloat.round decreaseExponent
  rw [targetExponent_binary64, totalExponent]
  dsimp only
  generalize hk : (e - max ((m.log2 : ℤ) + 1 + e - 53) (-1074)).toNat = k
  rw [← shiftLeft_mul_two_zpow m k e]
  refine isRounded_roundWithAccuracy s (by positivity) ?_ ?_
  · rw [mul_div_cancel_right₀ _ (two_zpow_pos _).ne']
    exact represents_exact _
  · rw [log2_shiftLeft hm]
    omega

/-- Rounding of a mantissa with its sign, in which a zero gets the sign asked for. -/
theorem isRounded_normalize (m : ℤ) (e : ℤ) (zeroSign : Sign) :
    IsRounded (UnpackedFloat.normalize .binary64 m e zeroSign) (m * 2 ^ e) := by
  unfold UnpackedFloat.normalize
  rcases lt_trichotomy m 0 with hm | rfl | hm
  · have hround := isRounded_round .negative (m := (-m).toNat) (by omega) e
    have hcast : (((-m).toNat : ℕ) : ℚ) = -m := by exact_mod_cast Int.toNat_of_nonneg (by omega)
    rw [hcast, signed, neg_mul, neg_neg] at hround
    rwa [Int.compare_eq_lt.2 hm]
  · refine ⟨trivial, ?_⟩
    simp [value?, rounded_zero]
  · have hround := isRounded_round .positive (m := m.toNat) (by omega) e
    have hcast : ((m.toNat : ℕ) : ℚ) = m := by exact_mod_cast Int.toNat_of_nonneg hm.le
    rw [hcast, signed] at hround
    rwa [Int.compare_eq_gt.2 hm]

/-- A number in the form in which it is packed needs no rounding. -/
theorem Canonical.isDouble (h : Canonical u) (hx : value? u = some x) : IsDouble x := by
  cases u with
  | notANumber | infinity => cases hx
  | zero =>
    obtain rfl : 0 = x := Option.some.inj hx
    exact isDouble_intCast (n := 0) (by norm_num)
  | finite s m e =>
    obtain ⟨hm, he, -⟩ := h
    obtain rfl : signed s (m * 2 ^ e) = x := Option.some.inj hx
    have hdouble : IsDouble ((m : ℚ) * 2 ^ e) := by
      refine ⟨m, e, ?_, he, by simp⟩
      rw [abs_of_nonneg (by omega)]
      exact_mod_cast hm.le
    cases s with
    | positive => exact hdouble
    | negative => exact hdouble.neg

theorem Canonical.isRounded (h : Canonical u) (hx : value? u = some x) : IsRounded u x :=
  ⟨h, by rw [hx, rounded_eq_self (h.isDouble hx)]⟩

theorem signed_neg (s : Sign) (x : ℚ) : signed (-s) x = -signed s x := by
  cases s with
  | positive => rfl
  | negative => exact (neg_neg x).symm

theorem signed_mul (s t : Sign) (x y : ℚ) : signed (s * t) (x * y) = signed s x * signed t y :=
  match s, t with
  | .positive, .positive => rfl
  | .positive, .negative => (mul_neg x y).symm
  | .negative, .positive => (neg_mul x y).symm
  | .negative, .negative => (neg_mul_neg x y).symm

theorem signed_div (s t : Sign) (x y : ℚ) : signed (s / t) (x / y) = signed s x / signed t y :=
  match s, t with
  | .positive, .positive => rfl
  | .positive, .negative => (div_neg x).symm
  | .negative, .positive => (neg_div y x).symm
  | .negative, .negative => (neg_div_neg_eq x y).symm

theorem apply_decreaseExponent (s : Sign) (m : ℕ) {e t : ℤ} (ht : t ≤ e) :
    ((s.apply ((decreaseExponent m e t).1 : ℤ) : ℤ) : ℚ) * 2 ^ t = signed s (m * 2 ^ e) := by
  have hvalue := shiftLeft_mul_two_zpow m (e - t).toNat e
  rw [show e - ((e - t).toNat : ℕ) = t by omega] at hvalue
  cases s with
  | positive => exact hvalue
  | negative =>
    rw [signed, ← hvalue, ← neg_mul]
    rfl

/-- Two numbers that are not zero are added with their common exponent, and need not be
canonical. -/
theorem isRounded_add_finite {s t : Sign} {m k : ℕ} {e f : ℤ} (hm : 0 < m) (hk : 0 < k) :
    IsRounded (UnpackedFloat.add .binary64 (.finite s m e hm) (.finite t k f hk))
      (signed s (m * 2 ^ e) + signed t (k * 2 ^ f)) := by
  rw [← apply_decreaseExponent s m (min_le_left e f),
    ← apply_decreaseExponent t k (min_le_right e f), ← add_mul, ← Int.cast_add]
  exact isRounded_normalize _ _ _

theorem isRounded_add (hu : Canonical u) (hw : Canonical w) (hx : value? u = some x)
    (hy : value? w = some y) : IsRounded (UnpackedFloat.add .binary64 u w) (x + y) := by
  cases u with
  | notANumber | infinity => cases hx
  | zero s =>
    obtain rfl : 0 = x := Option.some.inj hx
    rw [zero_add]
    cases w with
    | notANumber | infinity => cases hy
    | zero t =>
      obtain rfl : 0 = y := Option.some.inj hy
      cases s <;> cases t <;> exact Canonical.isRounded trivial rfl
    | finite => exact hw.isRounded hy
  | finite s m e hm =>
    cases w with
    | notANumber | infinity => cases hy
    | zero t =>
      obtain rfl : 0 = y := Option.some.inj hy
      rw [add_zero]
      exact hu.isRounded hx
    | finite =>
      obtain rfl := Option.some.inj hx
      obtain rfl := Option.some.inj hy
      exact isRounded_add_finite _ _

theorem isRounded_sub (hu : Canonical u) (hw : Canonical w) (hx : value? u = some x)
    (hy : value? w = some y) : IsRounded (UnpackedFloat.sub .binary64 u w) (x - y) := by
  cases u with
  | notANumber | infinity => cases hx
  | zero s =>
    obtain rfl : 0 = x := Option.some.inj hx
    rw [zero_sub]
    cases w with
    | notANumber | infinity => cases hy
    | zero t =>
      obtain rfl : 0 = y := Option.some.inj hy
      rw [neg_zero]
      cases s <;> cases t <;> exact Canonical.isRounded trivial rfl
    | finite t k f hk =>
      obtain rfl := Option.some.inj hy
      exact Canonical.isRounded hw (by rw [← signed_neg]; rfl)
  | finite s m e hm =>
    cases w with
    | notANumber | infinity => cases hy
    | zero t =>
      obtain rfl : 0 = y := Option.some.inj hy
      rw [sub_zero]
      exact hu.isRounded hx
    | finite t k f hk =>
      obtain rfl : signed s (m * 2 ^ e) = x := Option.some.inj hx
      obtain rfl : signed t (k * 2 ^ f) = y := Option.some.inj hy
      rw [← apply_decreaseExponent s m (min_le_left e f),
        ← apply_decreaseExponent t k (min_le_right e f), ← sub_mul, ← Int.cast_sub]
      exact isRounded_normalize _ _ _

/-- Two numbers that are not zero need not be canonical if their product has digits enough, or lies
below the least place. -/
theorem isRounded_mul_finite {s t : Sign} {m k : ℕ} {e f : ℤ} (hm : 0 < m) (hk : 0 < k)
    (he : e + f ≤ max ((m * k).log2 + 1 + (e + f) - 53) (-1074)) :
    IsRounded (UnpackedFloat.mul .binary64 (.finite s m e hm) (.finite t k f hk))
      (signed s (m * 2 ^ e) * signed t (k * 2 ^ f)) := by
  have hexact : (m : ℚ) * 2 ^ e * (k * 2 ^ f) = (m * k : ℕ) * 2 ^ (e + f) := by
    rw [two_zpow_add]
    push_cast
    ring
  rw [← signed_mul, hexact]
  refine isRounded_roundWithAccuracy _ (by positivity) ?_ he
  rw [mul_div_cancel_right₀ _ (two_zpow_pos _).ne']
  exact represents_exact _

/-- The product of two canonical mantissas has digits enough, unless it lies below the least
place. -/
theorem isRounded_mul (hu : Canonical u) (hw : Canonical w) (hx : value? u = some x)
    (hy : value? w = some y) : IsRounded (UnpackedFloat.mul .binary64 u w) (x * y) := by
  cases u with
  | notANumber | infinity => cases hx
  | zero s =>
    obtain rfl : 0 = x := Option.some.inj hx
    rw [zero_mul]
    cases w with
    | notANumber | infinity => cases hy
    | zero | finite => exact Canonical.isRounded trivial rfl
  | finite s m e hm =>
    cases w with
    | notANumber | infinity => cases hy
    | zero =>
      obtain rfl : 0 = y := Option.some.inj hy
      rw [mul_zero]
      exact Canonical.isRounded trivial rfl
    | finite t k f hk =>
      obtain rfl := Option.some.inj hx
      obtain rfl := Option.some.inj hy
      refine isRounded_mul_finite hm hk ?_
      obtain ⟨-, he, hfull⟩ := hu
      obtain ⟨-, hf, hfull'⟩ := hw
      by_cases hdigits : 2 ^ 52 ≤ m * k
      · have hlog : 52 ≤ (m * k).log2 := (Nat.le_log2 (Nat.mul_pos hm hk).ne').2 hdigits
        omega
      · have hm' : ¬ 2 ^ 52 ≤ m := fun h => hdigits (h.trans (Nat.le_mul_of_pos_right m hk))
        have hk' : ¬ 2 ^ 52 ≤ k := fun h => hdigits (h.trans (Nat.le_mul_of_pos_left k hm))
        omega

/-- A quotient and what is left over. -/
theorem represents_div (a : ℕ) {b : ℕ} (hb : 0 < b) :
    Represents (.ofMantissaAndAccuracy (a / b) (accuracyOfFraction (a % b) b)) (a / b) := by
  have hb' : (0 : ℚ) < b := by exact_mod_cast hb
  have hsplit : (a : ℚ) / b = (a / b : ℕ) + (a % b : ℕ) / b := by
    rw [div_eq_iff hb'.ne', add_mul, div_mul_cancel₀ _ hb'.ne']
    exact_mod_cast (Nat.div_add_mod' a b).symm
  rw [hsplit]
  unfold accuracyOfFraction
  have hlt := Nat.mod_lt a hb
  generalize a % b = r at hlt ⊢
  have hlt : (r : ℚ) / b < 1 := by
    rw [div_lt_one hb']
    exact_mod_cast hlt
  split_ifs with hzero
  · subst hzero
    simp [Represents, ExtendedMantissa.ofMantissaAndAccuracy]
  · have hpos : (0 : ℚ) < r / b := div_pos (by exact_mod_cast Nat.pos_of_ne_zero hzero) hb'
    rcases Nat.lt_trichotomy (2 * r) b with hless | heq | hmore
    · have hhalf : (r : ℚ) / b < 1 / 2 := by
        rw [div_lt_div_iff₀ hb' two_pos]
        exact_mod_cast (by omega : r * 2 < 1 * b)
      simp only [Nat.compare_eq_lt.2 hless, ExtendedMantissa.ofMantissaAndAccuracy, Represents]
      exact ⟨by linarith, by linarith⟩
    · have hhalf : (r : ℚ) / b = 1 / 2 := by
        rw [div_eq_div_iff hb'.ne' two_ne_zero]
        exact_mod_cast (by omega : r * 2 = 1 * b)
      rw [Nat.compare_eq_eq.2 heq, hhalf]
      rfl
    · have hhalf : (1 : ℚ) / 2 < r / b := by
        rw [div_lt_div_iff₀ two_pos hb']
        exact_mod_cast (by omega : 1 * b < r * 2)
      simp only [Nat.compare_eq_gt.2 hmore, ExtendedMantissa.ofMantissaAndAccuracy, Represents]
      exact ⟨by linarith, by linarith⟩

theorem log2_le_log2_div {a b : ℕ} (hb : 0 < b) (h : b.log2 < a.log2) :
    a.log2 ≤ (a / b).log2 + b.log2 + 1 := by
  have ha : a ≠ 0 := by
    rintro rfl
    simp at h
  have hle : 2 ^ (a.log2 - b.log2 - 1) ≤ a / b := by
    rw [Nat.le_div_iff_mul_le hb]
    calc 2 ^ (a.log2 - b.log2 - 1) * b ≤ 2 ^ (a.log2 - b.log2 - 1) * 2 ^ (b.log2 + 1) :=
          Nat.mul_le_mul_left _ Nat.lt_log2_self.le
      _ = 2 ^ a.log2 := by
          rw [← Nat.pow_add]
          congr 1
          omega
      _ ≤ a := Nat.log2_self_le ha
  have hpos : 0 < a / b := (Nat.two_pow_pos _).trans_le hle
  have hlog := (Nat.le_log2 hpos.ne').2 hle
  omega

/-- The quotient is formed with digits enough. -/
theorem isRounded_div (hx : value? u = some x) (hy : value? w = some y) (hne : y ≠ 0) :
    IsRounded (UnpackedFloat.div .binary64 u w) (x / y) := by
  cases w with
  | notANumber | infinity => cases hy
  | zero => exact absurd (Option.some.inj hy).symm hne
  | finite t k f hk =>
    cases u with
    | notANumber | infinity => cases hx
    | zero s =>
      obtain rfl : 0 = x := Option.some.inj hx
      rw [zero_div]
      exact Canonical.isRounded trivial rfl
    | finite s m e hm =>
      obtain rfl : signed s (m * 2 ^ e) = x := Option.some.inj hx
      obtain rfl : signed t (k * 2 ^ f) = y := Option.some.inj hy
      have hk' : (0 : ℚ) < k := by exact_mod_cast hk
      rw [← signed_div]
      simp only [UnpackedFloat.div, divCore, targetExponent_binary64, totalExponent]
      generalize htarget :
          min (e - f) (max ((m.log2 : ℤ) + 1 + e - (k.log2 + 1 + f) - 53) (-1074)) = t'
      generalize hshift : (e - f - t').toNat = n
      refine isRounded_roundWithAccuracy _ (by positivity) ?_ ?_
      · have hexact : (m : ℚ) * 2 ^ e / (k * 2 ^ f) / 2 ^ t' = (m <<< n : ℕ) / k := by
          have hvalue := shiftLeft_mul_two_zpow m n e
          rw [show e - n = f + t' by omega] at hvalue
          rw [← hvalue, two_zpow_add]
          field_simp
        rw [hexact]
        exact represents_div _ hk
      · have hlog := log2_shiftLeft hm n
        by_cases hdigits : k.log2 < (m <<< n).log2
        · have hquotient := log2_le_log2_div hk hdigits
          omega
        · omega

/-- The fused operation rounds the exact result once. -/
theorem isRounded_mulAdd {v : UnpackedFloat} {z : ℚ} (hu : Canonical u) (hw : Canonical w)
    (hv : Canonical v) (hx : value? u = some x) (hy : value? w = some y) (hz : value? v = some z) :
    IsRounded (mulAdd .binary64 u w v) (x * y + z) := by
  have hzero (s : Sign) (hxy : x * y = 0) :
      IsRounded (UnpackedFloat.add .binary64 (.zero s) v) (x * y + z) := by
    rw [hxy]
    exact isRounded_add (u := .zero s) trivial hv rfl hz
  cases u with
  | notANumber | infinity => cases hx
  | zero s =>
    obtain rfl : 0 = x := Option.some.inj hx
    cases w with
    | notANumber | infinity => cases hy
    | zero t => exact hzero _ (zero_mul y)
    | finite t => exact hzero _ (zero_mul y)
  | finite s m e hm =>
    cases w with
    | notANumber | infinity => cases hy
    | zero t =>
      obtain rfl : 0 = y := Option.some.inj hy
      exact hzero _ (mul_zero x)
    | finite t k f hk =>
      cases v with
      | notANumber | infinity => cases hz
      | zero r =>
        obtain rfl : 0 = z := Option.some.inj hz
        rw [add_zero]
        exact isRounded_mul hu hw hx hy
      | finite r l g hl =>
        obtain rfl : signed s (m * 2 ^ e) = x := Option.some.inj hx
        obtain rfl : signed t (k * 2 ^ f) = y := Option.some.inj hy
        obtain rfl : signed r (l * 2 ^ g) = z := Option.some.inj hz
        have hexact : (m : ℚ) * 2 ^ e * (k * 2 ^ f) = (m * k : ℕ) * 2 ^ (e + f) := by
          rw [two_zpow_add]
          push_cast
          ring
        rw [← signed_mul, hexact]
        exact isRounded_add_finite (Nat.mul_pos hm hk) hl

theorem exponentBias_binary64 :
    (Format.binary64.exponentBias : ℤ) + Format.binary64.mantissaBitsWithoutImplicit = 1075 := rfl

/-- The digit that is not stored. -/
theorem toNat_implicit_append (k : BitVec 52) : (1#1 ++ k).toNat = 2 ^ 52 + k.toNat := by
  rw [BitVec.toNat_append, ← Nat.shiftLeft_add_eq_or_of_lt k.isLt]
  rfl

/-- What is unpacked can be packed again. -/
theorem canonical_unpack (bits : BitVec Format.binary64.numBits) :
    Canonical (unpack .binary64 bits) := by
  have hbias := exponentBias_binary64
  fun_cases unpack Format.binary64 bits with
  | case1 | case2 | case3 => trivial
  | case4 mantissa exponent _ _ _ _ hzero =>
    have hm : mantissa.toNat < 2 ^ 52 := mantissa.isLt
    have he : exponent.toNat = 0 := by rw [hzero]; rfl
    dsimp only [Canonical]
    omega
  | case5 mantissa exponent =>
    have hm : mantissa.toNat < 2 ^ 52 := mantissa.isLt
    have he : 0 < exponent.toNat := by rwa [BitVec.toNat_pos, BitVec.pos_iff_ne_zero]
    have himplicit := toNat_implicit_append mantissa
    dsimp only [Canonical]
    omega

/-- What is unpacked is not too large. -/
theorem exponent_unpack_le {bits : BitVec Format.binary64.numBits} {hm : 0 < m}
    (h : unpack .binary64 bits = .finite s m e hm) : e ≤ 971 := by
  have hbias := exponentBias_binary64
  revert h
  fun_cases unpack Format.binary64 bits with
  | case1 | case2 | case3 => exact fun h => nomatch h
  | case4 _ exponent _ _ _ _ hzero =>
    have hexp : exponent.toNat = 0 := by rw [hzero]; rfl
    intro h
    injection h
    omega
  | case5 _ exponent _ _ _ hones =>
    have hexp : exponent.toNat ≠ 2047 := fun h => hones (BitVec.eq_of_toNat_eq h)
    have hlt : exponent.toNat < 2048 := exponent.isLt
    intro h
    injection h
    omega

theorem unpack_packedInfinity (s : Sign) :
    unpack .binary64 (packedInfinity .binary64 s) = .infinity s := by
  cases s <;> rfl

theorem ofBitVec_toBitVec (s : Sign) : Sign.ofBitVec s.toBitVec = s := by
  cases s <;> rfl

/-- A number with all its digits is unpacked from its components. -/
theorem unpack_normal (s : Sign) {b : ℕ} (hm : 0 < m) (hb : 0 < b) (hb' : b < 2047)
    (hfull : 2 ^ 52 ≤ m) (hm' : m < 2 ^ 53) :
    unpack .binary64 (packComponents .binary64 s (.ofNat 11 b) (.ofNat 52 m)) =
      .finite s m (b - 1075) hm := by
  have hexp : (BitVec.ofNat 11 b).toNat = b := Nat.mod_eq_of_lt (by omega)
  have hzero : BitVec.ofNat 11 b ≠ 0#11 := fun h => by
    have h := congrArg BitVec.toNat h
    rw [hexp, BitVec.toNat_zero] at h
    omega
  have hones : BitVec.ofNat 11 b ≠ -1#11 := fun h => by
    have h := congrArg BitVec.toNat h
    rw [hexp, show (-1#11).toNat = 2047 from rfl] at h
    omega
  have hdigits : (1#1 ++ BitVec.ofNat 52 m).toNat = m := by
    rw [toNat_implicit_append, BitVec.toNat_ofNat]
    omega
  simp only [unpack, unpackMantissa_packComponents, unpackExponent_packComponents,
    unpackSign_packComponents, ofBitVec_toBitVec]
  rw [if_neg hones, if_neg hzero]
  simp only [hexp, hdigits]
  rfl

/-- A number with fewer digits, too. -/
theorem unpack_subnormal (s : Sign) {hm : 0 < m} (hm' : m < 2 ^ 52) :
    unpack .binary64 (packComponents .binary64 s 0#11 (.ofNat 52 m)) = .finite s m (-1074) hm := by
  have hdigits : (BitVec.ofNat 52 m).toNat = m := Nat.mod_eq_of_lt hm'
  have hzero : BitVec.ofNat 52 m ≠ 0#52 := fun h => by
    have h := congrArg BitVec.toNat h
    rw [hdigits, BitVec.toNat_zero] at h
    omega
  simp only [unpack, unpackMantissa_packComponents, unpackExponent_packComponents,
    unpackSign_packComponents, ofBitVec_toBitVec]
  rw [if_neg (by decide), if_pos trivial, dif_neg hzero]
  simp only [hdigits]
  rfl

/-- A canonical number is packed as its components, unless its exponent is too large. -/
theorem pack_finite {hm : 0 < m} (h : Canonical (.finite s m e hm)) :
    pack .binary64 (.finite s m e hm) =
      if e ≤ 971 then
        if 2 ^ 52 ≤ m then
          packComponents .binary64 s (.ofNat 11 (e + 1075).toNat) (.ofNat 52 m)
        else
          packComponents .binary64 s 0#11 (.ofNat 52 m)
      else
        packedInfinity .binary64 s := by
  obtain ⟨hm', he, -⟩ := h
  have hbias :
      e + (Format.binary64.exponentBias : ℤ) + Format.binary64.mantissaBitsWithoutImplicit =
      e + 1075 := by rw [add_assoc, exponentBias_binary64]
  have hlarge : 2 ^ Format.binary64.exponentBits ≤ (e + 1075).toNat + 1 ↔ ¬ e ≤ 971 := by
    change 2048 ≤ (e + 1075).toNat + 1 ↔ _
    omega
  have hdigits : m.log2 + 1 = Format.binary64.mantissaBits ↔ 2 ^ 52 ≤ m := by
    change m.log2 + 1 = 53 ↔ _
    rw [← Nat.le_log2 hm.ne']
    have hlog := (Nat.log2_lt hm.ne').2 hm'
    omega
  simp only [pack, hbias, hlarge, hdigits, ite_not]

/-- A canonical number is unpacked as it was packed, or as infinite if its exponent is too large. -/
theorem unpack_pack {hm : 0 < m} (h : Canonical (.finite s m e hm)) :
    unpack .binary64 (pack .binary64 (.finite s m e hm)) =
      if e ≤ 971 then .finite s m e hm else .infinity s := by
  rw [pack_finite h]
  obtain ⟨hm', he, hfull⟩ := h
  split_ifs with hexp hnormal
  · refine (unpack_normal s hm (by omega) (by omega) hnormal hm').trans ?_
    congr 1
    omega
  · obtain rfl : e = -1074 := hfull.resolve_left hnormal
    exact unpack_subnormal s (not_le.1 hnormal)
  · exact unpack_packedInfinity s

theorem toBitVec_ofBitVec (b : BitVec 1) : (Sign.ofBitVec b).toBitVec = b := by
  revert b
  decide

/-- A packed number consists of its components. -/
theorem packComponents_unpack {bits : BitVec Format.binary64.numBits}
    {exponent : BitVec Format.binary64.exponentBits}
    {mantissa : BitVec Format.binary64.mantissaBitsWithoutImplicit}
    (he : unpackExponent bits = exponent) (hm : unpackMantissa bits = mantissa) :
    packComponents .binary64 (.ofBitVec (unpackSign bits)) exponent mantissa = bits := by
  subst he hm
  simp only [packComponents, toBitVec_ofBitVec, unpackSign, unpackExponent, unpackMantissa,
    BitVec.extractLsb]
  ext i hi
  grind

/-- What is unpacked is packed as it was. -/
theorem pack_unpack {bits : BitVec Format.binary64.numBits} (h : Format.binary64.Valid bits) :
    pack .binary64 (unpack .binary64 bits) = bits := by
  have hbias := exponentBias_binary64
  have hcanonical := canonical_unpack bits
  revert hcanonical
  fun_cases unpack Format.binary64 bits with
  | case1 mantissa _ _ _ hones hzero => exact fun _ => packComponents_unpack hones hzero
  | case2 mantissa _ hones hzero => exact fun _ => (h.eq_packedNaN hones hzero).symm
  | case3 mantissa _ _ _ hones hleast hzero => exact fun _ => packComponents_unpack hleast hzero
  | case4 mantissa exponent _ _ _ hones hleast hzero =>
    intro hcanonical
    have hm : mantissa.toNat < 2 ^ 52 := mantissa.isLt
    have he : exponent.toNat = 0 := by rw [hleast]; rfl
    rw [pack_finite hcanonical, if_pos (by omega), if_neg hm.not_ge]
    exact packComponents_unpack hleast (by rw [BitVec.ofNat_toNat, BitVec.setWidth_eq])
  | case5 mantissa exponent shifted _ _ hones hleast =>
    intro hcanonical
    have hm : mantissa.toNat < 2 ^ 52 := mantissa.isLt
    have he : exponent.toNat < 2047 := by
      have hlt : exponent.toNat < 2048 := exponent.isLt
      have hne : exponent.toNat ≠ 2047 := fun h => hones (BitVec.eq_of_toNat_eq h)
      omega
    have himplicit := toNat_implicit_append mantissa
    have hexp : (shifted + 1075).toNat = exponent.toNat := by omega
    rw [pack_finite hcanonical, if_pos (by omega), if_pos (by omega), himplicit, hexp]
    refine packComponents_unpack (by rw [BitVec.ofNat_toNat, BitVec.setWidth_eq])
      (BitVec.eq_of_toNat_eq ?_)
    rw [BitVec.toNat_ofNat]
    exact (by omega : mantissa.toNat = (2 ^ 52 + mantissa.toNat) % 2 ^ 52)

end WeightPolyhedron.Double
