import WeightPolyhedron.Proofs.Scalar.Arithmetic

/-!
Doubles from decimal numbers. A decimal number becomes the double that it is rounded to, whether its
digits and its power of ten are doubles themselves or have to be multiplied in full. A double other
than zero is determined by the number that it stands for.
-/

namespace WeightPolyhedron.Double

open Float.Model (UnpackedFloat Format)
open Float.Model.UnpackedFloat

variable {x y : Float} {a q : ℚ} {u w : UnpackedFloat} {m : ℕ}

/-- A double is its unpacked form, packed again. -/
theorem ofModel_pack_unpack (x : Float) : .ofModel (.pack x.toModel.unpack) = x := by
  obtain ⟨bits, hvalid⟩ := x
  have hpack : pack .binary64 (unpack .binary64 bits.toBitVec) = bits.toBitVec := pack_unpack hvalid
  simp only [Float.Model.pack, Float.Model.unpack, hpack]

theorem eq_of_unpack_eq (h : x.toModel.unpack = y.toModel.unpack) : x = y := by
  rw [← ofModel_pack_unpack x, h, ofModel_pack_unpack]

/-- Only zero has two canonical forms. -/
theorem Canonical.eq_of_value? (hu : Canonical u) (hw : Canonical w) (ha : value? u = some a)
    (hb : value? w = some a) (hne : a ≠ 0) : u = w := by
  cases u with
  | notANumber | infinity => cases ha
  | zero => exact absurd (Option.some.inj ha).symm hne
  | finite s m e hm =>
    cases w with
    | notANumber | infinity => cases hb
    | zero => exact absurd (Option.some.inj hb).symm hne
    | finite t k f hk =>
      obtain rfl : signed s (m * 2 ^ e) = a := Option.some.inj ha
      have hvalue : signed t (k * 2 ^ f) = signed s (m * 2 ^ e) := Option.some.inj hb
      have hpos : (0 : ℚ) < m * 2 ^ e := mul_pos (by exact_mod_cast hm) (two_zpow_pos e)
      have hpos' : (0 : ℚ) < k * 2 ^ f := mul_pos (by exact_mod_cast hk) (two_zpow_pos f)
      have hmagnitude : (k : ℚ) * 2 ^ f = m * 2 ^ e := by
        rw [← abs_of_pos hpos, ← abs_of_pos hpos', ← abs_signed t, hvalue, abs_signed]
      have hcompare := compare_magnitudes hu.1 hw.1 hu.2.1 hw.2.1 hu.2.2 hw.2.2
      rw [hmagnitude, compare_eq_iff_eq.2 rfl, Ordering.then_eq_eq, compare_eq_iff_eq,
        compare_eq_iff_eq] at hcompare
      obtain ⟨rfl, rfl⟩ := hcompare
      obtain rfl : t = s := by
        cases s <;> cases t <;> simp only [signed] at hvalue <;> first | rfl | linarith
      rfl

theorem eq_of_toRat?_eq (hx : toRat? x = some a) (hy : toRat? y = some a) (hne : a ≠ 0) : x = y :=
  eq_of_unpack_eq ((canonical_toModel x).eq_of_value? (canonical_toModel y) hx hy hne)

theorem roundsTo_toFloat (n : UInt64) : RoundsTo n.toNat n.toFloat := by
  have hround := isRounded_normalize n.toNat 0 .positive
  rw [zpow_zero, mul_one, Int.cast_natCast] at hround
  exact roundsTo_pack hround

/-- A mantissa is converted without loss. -/
theorem toRat?_toFloat (hm : m < 2 ^ 53) : toRat? m.toUInt64.toFloat = some (m : ℚ) := by
  have hround := roundsTo_toFloat m.toUInt64
  have hcast : m.toUInt64.toNat = m := Nat.mod_eq_of_lt (hm.trans (by norm_num))
  have hm' : |(m : ℤ)| ≤ 2 ^ 53 := by
    rw [abs_of_nonneg (by omega)]
    exact_mod_cast hm.le
  have hdouble : IsDouble (m : ℚ) := by exact_mod_cast isDouble_intCast hm'
  have hbound : |(m : ℚ)| ≤ 2 ^ (53 : ℤ) := by exact_mod_cast hm'
  rw [hcast] at hround
  rw [hround.toRat? hbound (isDouble_two_zpow (by norm_num))
    (zpow_lt_zpow_right₀ one_lt_two (by norm_num)), rounded_eq_self hdouble]

theorem toRat?_powerOfTen : ∀ e (_ : e < Float.exactlyRepresentablePowersOfTen.size),
    toRat? Float.exactlyRepresentablePowersOfTen[e] = some (10 ^ e) := by
  decide +kernel

theorem rounded_eq_zero (h0 : 0 ≤ q) (hq : q < 2 ^ (-1075 : ℤ)) : rounded q = 0 := by
  rcases h0.eq_or_lt with rfl | hpos
  · exact rounded_zero
  have hplace : lastPlace q = -1074 := by
    refine lastPlace_eq hpos.ne' le_rfl ?_ (.inl rfl)
    rw [abs_of_pos hpos]
    exact hq.trans_le (two_zpow_le (by norm_num))
  have hnear : nearestEven (q / 2 ^ (-1074 : ℤ)) = 0 := by
    rw [nearestEven_eq_iff, Int.cast_zero, zero_sub, abs_neg, abs_of_nonneg (by positivity),
      div_lt_iff₀ (two_zpow_pos _)]
    refine .inl (hq.trans_eq ?_)
    rw [show (-1074 : ℤ) = 1 + -1075 by norm_num, two_zpow_add]
    ring
  rw [rounded, hplace, hnear]
  simp

/-- A decimal number with digits enough above the range of doubles is too large. -/
theorem two_zpow_le_rounded (hm : 0 < m) {e : ℕ} (he : 2048 < e) :
    2 ^ (1024 : ℤ) ≤ rounded (m * 10 ^ (e : ℤ)) := by
  have hm' : (1 : ℚ) ≤ m := by exact_mod_cast hm
  refine le_rounded ?_ (isDouble_two_zpow (by norm_num))
  calc (2 : ℚ) ^ (1024 : ℤ) ≤ 2 ^ (e : ℤ) := two_zpow_le (by omega)
    _ ≤ 10 ^ (e : ℤ) := by
        rw [zpow_natCast, zpow_natCast]
        exact pow_le_pow_left₀ (by norm_num) (by norm_num) e
    _ ≤ m * 10 ^ (e : ℤ) := le_mul_of_one_le_left (by positivity) hm'

/-- One far below the least double is rounded to zero. -/
theorem rounded_eq_zero_of_exponent {e : ℕ} (he : 2048 + m.log2 < e) :
    rounded (m * 10 ^ (-e : ℤ)) = 0 := by
  refine rounded_eq_zero (by positivity) ?_
  have hm : (m : ℚ) < 2 ^ ((m.log2 : ℤ) + 1) := by exact_mod_cast Nat.lt_log2_self (n := m)
  have hten : (10 : ℚ) ^ (-e : ℤ) ≤ 2 ^ (-e : ℤ) := by
    rw [zpow_neg, zpow_neg, zpow_natCast, zpow_natCast]
    exact inv_anti₀ (by positivity) (pow_le_pow_left₀ (by norm_num) (by norm_num) e)
  calc (m : ℚ) * 10 ^ (-e : ℤ) ≤ 2 ^ ((m.log2 : ℤ) + 1) * 2 ^ (-e : ℤ) :=
        mul_le_mul hm.le hten (by positivity) (two_zpow_pos _).le
    _ = 2 ^ ((m.log2 : ℤ) + 1 + -e) := (two_zpow_add _ _).symm
    _ < 2 ^ (-1075 : ℤ) := zpow_lt_zpow_right₀ one_lt_two (by omega)

/-- Digits are shifted up before they are multiplied, so that there are enough of them. -/
theorem isRounded_mul_powerOfTen {k : ℕ} (hm : 0 < m <<< 53) (hk : 0 < 10 ^ k) :
    IsRounded (UnpackedFloat.mul .binary64 (.finite .positive (m <<< 53) (-53) hm)
      (.finite .positive (10 ^ k) 0 hk)) (m * 10 ^ (k : ℤ)) := by
  have hvalue := shiftLeft_mul_two_zpow m 53 0
  have hlog : 53 ≤ (m <<< 53 * 10 ^ k).log2 := by
    have hm' : 0 < m := by
      rw [Nat.shiftLeft_eq] at hm
      exact Nat.pos_of_mul_pos_right hm
    rw [Nat.le_log2 (Nat.mul_pos hm hk).ne', Nat.shiftLeft_eq]
    calc 2 ^ 53 ≤ m * 2 ^ 53 := Nat.le_mul_of_pos_left _ hm'
      _ ≤ m * 2 ^ 53 * 10 ^ k := Nat.le_mul_of_pos_right _ hk
  have hround := isRounded_mul_finite (s := .positive) (t := .positive) (e := -53) (f := 0) hm hk
    (by omega)
  rw [signed, signed, show (-53 : ℤ) = 0 - (53 : ℕ) by norm_num, hvalue, zpow_zero,
    mul_one, mul_one, Nat.cast_pow, Nat.cast_ofNat, ← zpow_natCast] at hround
  exact hround

theorem isRounded_div_powerOfTen {k : ℕ} (hm : 0 < m) (hk : 0 < 10 ^ k) :
    IsRounded
      (UnpackedFloat.div .binary64 (.finite .positive m 0 hm) (.finite .positive (10 ^ k) 0 hk))
      (m * 10 ^ (-k : ℤ)) := by
  have hk' : ((10 ^ k : ℕ) : ℚ) * 2 ^ (0 : ℤ) = 10 ^ (k : ℤ) := by
    rw [zpow_zero, mul_one, Nat.cast_pow, Nat.cast_ofNat, zpow_natCast]
  have hround :=
    isRounded_div (u := .finite .positive m 0 hm) (w := .finite .positive (10 ^ k) 0 hk)
    rfl rfl (by rw [signed, hk']; positivity)
  rw [signed, signed, hk', zpow_zero, mul_one, div_eq_mul_inv, ← zpow_neg] at hround
  exact hround

/-- Digits and a power of ten are multiplied or divided in full, unless the result is far from the
range of doubles. -/
theorem roundsTo_ofScientific_model (m : ℕ) (e : ℤ) :
    RoundsTo (m * 10 ^ e) (.ofModel (.ofScientific m e)) := by
  have hrange : (2 : ℤ) ^ Format.binary64.exponentBits = 2048 := rfl
  unfold Float.Model.ofScientific UnpackedFloat.ofScientific
  rw [hrange]
  split_ifs with hzero hlarge hsmall hnonneg
  · subst hzero
    refine .finite ?_
    rw [Nat.cast_zero, zero_mul, rounded_zero]
    rfl
  · obtain ⟨k, rfl⟩ := Int.eq_ofNat_of_zero_le (by omega : 0 ≤ e)
    have hbound := two_zpow_le_rounded (Nat.pos_of_ne_zero hzero) (by omega : 2048 < k)
    have hnonneg : (0 : ℚ) ≤ m * 10 ^ (k : ℤ) := by positivity
    refine .tooLarge (hbound.trans (le_abs_self _)) ?_
    rw [if_neg hnonneg.not_gt]
    rfl
  · obtain ⟨k, rfl⟩ := Int.exists_eq_neg_ofNat (by omega : e ≤ 0)
    refine .finite ?_
    rw [rounded_eq_zero_of_exponent (by omega : 2048 + m.log2 < k)]
    rfl
  · obtain ⟨k, rfl⟩ := Int.eq_ofNat_of_zero_le hnonneg
    exact roundsTo_pack (isRounded_mul_powerOfTen _ _)
  · obtain ⟨k, rfl⟩ := Int.exists_eq_neg_ofNat (by omega : e ≤ 0)
    have hk : (-(-(k : ℤ))).toNat = k := by omega
    simp only [hk]
    exact roundsTo_pack (isRounded_div_powerOfTen _ _)

/-- A decimal number becomes the double that it is rounded to. -/
theorem roundsTo_ofScientific (m : ℕ) (negative : Bool) (e : ℕ) :
    RoundsTo (m * 10 ^ (if negative then -(e : ℤ) else e)) (.ofScientific m negative e) := by
  unfold Float.ofScientific
  by_cases hshort : m < 2 ^ 53 ∧ e ≤ 22
  · obtain ⟨hm, he⟩ := hshort
    rw [dif_pos ⟨hm, he⟩]
    cases negative with
    | true =>
      rw [if_pos rfl, if_pos rfl, zpow_neg, zpow_natCast, ← div_eq_mul_inv]
      exact roundsTo_div (toRat?_toFloat hm) (toRat?_powerOfTen e (Nat.lt_succ_of_le he))
        (by positivity)
    | false =>
      rw [if_neg Bool.false_ne_true, if_neg Bool.false_ne_true, zpow_natCast]
      exact roundsTo_mul (toRat?_toFloat hm) (toRat?_powerOfTen e (Nat.lt_succ_of_le he))
  · rw [dif_neg hshort]
    cases negative with
    | true => simpa [Int.negOfNat_eq] using roundsTo_ofScientific_model m (-e)
    | false => exact roundsTo_ofScientific_model m e

end WeightPolyhedron.Double
