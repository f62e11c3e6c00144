import WeightPolyhedron.Proofs.Scalar.Unpacked

/-!
Double precision as rounded arithmetic. The result of an operation on real numbers is the exact one
rounded, or infinite with its sign if that is too large, and an undefined operand makes it
undefined.
-/

namespace WeightPolyhedron.Double

open Float.Model (UnpackedFloat Format)
open Float.Model.UnpackedFloat

variable {x y z : Float} {a b c q : ℚ} {u w : UnpackedFloat}

/-- The rational number that a double stands for; infinite and undefined ones stand for none. -/
def toRat? (x : Float) : Option ℚ := value? x.toModel.unpack

theorem canonical_toModel (x : Float) : Canonical x.toModel.unpack := canonical_unpack _

theorem isFinite_iff : x.isFinite ↔ ∃ q, toRat? x = some q := by
  have h : x.isFinite = x.toModel.unpack.isFinite := rfl
  rw [h, toRat?]
  cases x.toModel.unpack <;> simp [UnpackedFloat.isFinite, value?]

theorem isNaN_iff_unpack : x.isNaN ↔ x.toModel.unpack = .notANumber := by
  have h : x.isNaN = x.toModel.unpack.isNaN := rfl
  rw [h]
  cases x.toModel.unpack <;> simp [UnpackedFloat.isNaN]

theorem toRat?_zero : toRat? 0 = some 0 := rfl

theorem toRat?_one : toRat? 1 = some 1 := by
  have h : (1 : Float).toModel.unpack = .finite .positive (2 ^ 52) (-52) (by decide) := rfl
  rw [toRat?, h, value?, signed]
  norm_num

/-- Of canonical numbers the one with the larger exponent is larger. -/
theorem compare_magnitudes {m k : ℕ} {e f : ℤ} (hm : m < 2 ^ 53) (hk : k < 2 ^ 53) (he : -1074 ≤ e)
    (hf : -1074 ≤ f) (hm' : 2 ^ 52 ≤ m ∨ e = -1074) (hk' : 2 ^ 52 ≤ k ∨ f = -1074) :
    (compare e f).then (compare m k) = compare ((m : ℚ) * 2 ^ e) (k * 2 ^ f) := by
  -- the larger exponent is not the least one
  have hlt {m k : ℕ} {e f : ℤ} (hm : m < 2 ^ 53) (hk' : 2 ^ 52 ≤ k ∨ f = -1074) (he : -1074 ≤ e)
      (hef : e < f) : (m : ℚ) * 2 ^ e < k * 2 ^ f := by
    have hm : (m : ℚ) < 2 ^ 53 := by exact_mod_cast hm
    have hk : (2 : ℚ) ^ 52 ≤ k := by exact_mod_cast hk'.resolve_right (by omega)
    calc (m : ℚ) * 2 ^ e < 2 ^ 53 * 2 ^ e := mul_lt_mul_of_pos_right hm (two_zpow_pos e)
      _ = 2 ^ 52 * 2 ^ (1 + e) := by
          rw [two_zpow_add, ← mul_assoc]
          norm_num
      _ ≤ 2 ^ 52 * 2 ^ f := mul_le_mul_of_nonneg_left (two_zpow_le (by omega)) (by norm_num)
      _ ≤ k * 2 ^ f := mul_le_mul_of_nonneg_right hk (two_zpow_pos f).le
  rcases lt_trichotomy e f with hef | rfl | hfe
  · rw [compare_lt_iff_lt.2 hef, compare_lt_iff_lt.2 (hlt hm hk' he hef)]
    rfl
  · rw [compare_eq_iff_eq.2 rfl, Ordering.eq_then]
    have hpos := two_zpow_pos e
    rcases lt_trichotomy m k with hmk | rfl | hkm
    · rw [compare_lt_iff_lt.2 hmk, eq_comm, compare_lt_iff_lt]
      exact mul_lt_mul_of_pos_right (by exact_mod_cast hmk) hpos
    · rw [compare_eq_iff_eq.2 rfl, compare_eq_iff_eq.2 rfl]
    · rw [compare_gt_iff_gt.2 hkm, eq_comm, compare_gt_iff_gt]
      exact mul_lt_mul_of_pos_right (by exact_mod_cast hkm) hpos
  · rw [compare_gt_iff_gt.2 hfe, compare_gt_iff_gt.2 (hlt hk hm' hf hfe)]
    rfl

theorem compare_neg (a b : ℚ) : compare (-a) (-b) = (compare a b).swap := by
  rcases lt_trichotomy a b with h | rfl | h
  · rw [compare_lt_iff_lt.2 h, compare_gt_iff_gt.2 (neg_lt_neg h)]
    rfl
  · rw [compare_eq_iff_eq.2 rfl, compare_eq_iff_eq.2 rfl]
    rfl
  · rw [compare_gt_iff_gt.2 h, compare_lt_iff_lt.2 (neg_lt_neg h)]
    rfl

/-- Unpacked numbers are compared as the numbers that they stand for. -/
theorem compare_eq (hu : Canonical u) (hw : Canonical w) (ha : value? u = some a)
    (hb : value? w = some b) : u.compare w = some (compare a b) := by
  have hpos {m : ℕ} {e : ℤ} (hm : 0 < m) : (0 : ℚ) < m * 2 ^ e :=
    mul_pos (by exact_mod_cast hm) (two_zpow_pos e)
  cases u with
  | notANumber | infinity => cases ha
  | zero s =>
    obtain rfl : 0 = a := Option.some.inj ha
    cases w with
    | notANumber | infinity => cases hb
    | zero t =>
      obtain rfl : 0 = b := Option.some.inj hb
      rfl
    | finite t k f hk =>
      obtain rfl : signed t (k * 2 ^ f) = b := Option.some.inj hb
      cases t with
      | positive => exact congrArg some (compare_lt_iff_lt.2 (hpos hk)).symm
      | negative => exact congrArg some (compare_gt_iff_gt.2 (neg_lt_zero.2 (hpos hk))).symm
  | finite s m e hm =>
    obtain rfl : signed s (m * 2 ^ e) = a := Option.some.inj ha
    cases w with
    | notANumber | infinity => cases hb
    | zero t =>
      obtain rfl : 0 = b := Option.some.inj hb
      cases s with
      | positive => exact congrArg some (compare_gt_iff_gt.2 (hpos hm)).symm
      | negative => exact congrArg some (compare_lt_iff_lt.2 (neg_lt_zero.2 (hpos hm))).symm
    | finite t k f hk =>
      obtain rfl : signed t (k * 2 ^ f) = b := Option.some.inj hb
      have hmagnitudes := compare_magnitudes hu.1 hw.1 hu.2.1 hw.2.1 hu.2.2 hw.2.2
      have hneg : -((m : ℚ) * 2 ^ e) < 0 := neg_lt_zero.2 (hpos hm)
      match s, t with
      | .positive, .positive => exact congrArg some hmagnitudes
      | .positive, .negative =>
        exact congrArg some (compare_gt_iff_gt.2 ((neg_lt_zero.2 (hpos hk)).trans (hpos hm))).symm
      | .negative, .positive =>
        exact congrArg some (compare_lt_iff_lt.2 (hneg.trans (hpos hk))).symm
      | .negative, .negative =>
        exact congrArg some ((congrArg Ordering.swap hmagnitudes).trans (compare_neg _ _).symm)

theorem le_iff_of_toRat? (ha : toRat? x = some a) (hb : toRat? y = some b) : x ≤ y ↔ a ≤ b := by
  rw [le_iff, compare_eq (canonical_toModel x) (canonical_toModel y) ha hb, Option.any_some,
    ← compare_le_iff_le]
  cases compare a b <;> simp

theorem lt_iff_of_toRat? (ha : toRat? x = some a) (hb : toRat? y = some b) : x < y ↔ a < b := by
  rw [lt_iff, compare_eq (canonical_toModel x) (canonical_toModel y) ha hb, Option.some_inj,
    compare_lt_iff_lt]

inductive RoundsTo (q : ℚ) (x : Float) : Prop
  | finite (h : toRat? x = some (rounded q))
  | tooLarge (h : 2 ^ (1024 : ℤ) ≤ |rounded q|)
    (hx : x.toModel.unpack = .infinity (if q < 0 then .negative else .positive))

/-- Packing loses nothing but numbers that are too large. -/
theorem roundsTo_pack (h : IsRounded u q) : RoundsTo q (.ofModel (.pack u)) := by
  obtain ⟨hu, hq⟩ := h
  have hunpack : (Float.ofModel (.pack u)).toModel.unpack = unpack .binary64 (pack .binary64 u) :=
    rfl
  cases u with
  | notANumber | infinity => cases hq
  | zero s =>
    refine .finite ?_
    rw [toRat?, hunpack, ← hq]
    cases s <;> rfl
  | finite s m e hm =>
    rw [unpack_pack hu] at hunpack
    split_ifs at hunpack with he
    · exact .finite (by rw [toRat?, hunpack, hq])
    · have hm' : (2 : ℚ) ^ 52 ≤ m := by exact_mod_cast hu.2.2.resolve_right (by omega)
      have hq : signed s (m * 2 ^ e) = rounded q := Option.some.inj hq
      have hlarge : 2 ^ (1024 : ℤ) ≤ (m : ℚ) * 2 ^ e := calc
        (2 : ℚ) ^ (1024 : ℤ) = 2 ^ 52 * 2 ^ (972 : ℤ) := by rw [← zpow_natCast, ← two_zpow_add]; rfl
        _ ≤ m * 2 ^ e := mul_le_mul hm' (two_zpow_le (by omega)) (two_zpow_pos _).le (by positivity)
      have hpos := (two_zpow_pos 1024).trans_le hlarge
      have hsign : s = if q < 0 then .negative else .positive := by
        split_ifs with hneg
        · cases s with
          | negative => rfl
          | positive => exact absurd (rounded_nonpos hneg.le) (hpos.trans_eq hq).not_ge
        · cases s with
          | positive => rfl
          | negative =>
            exact absurd (rounded_nonneg (not_lt.1 hneg))
              (hq.symm.trans_lt (neg_lt_zero.2 hpos)).not_ge
      refine .tooLarge ?_ (hsign ▸ hunpack)
      rw [← hq, abs_signed]
      exact hlarge.trans (le_abs_self _)

theorem roundsTo_sub (ha : toRat? x = some a) (hb : toRat? y = some b) : RoundsTo (a - b) (x - y) :=
  roundsTo_pack (isRounded_sub (canonical_toModel x) (canonical_toModel y) ha hb)

theorem roundsTo_mul (ha : toRat? x = some a) (hb : toRat? y = some b) : RoundsTo (a * b) (x * y) :=
  roundsTo_pack (isRounded_mul (canonical_toModel x) (canonical_toModel y) ha hb)

theorem roundsTo_div (ha : toRat? x = some a) (hb : toRat? y = some b) (hne : b ≠ 0) :
    RoundsTo (a / b) (x / y) :=
  roundsTo_pack (isRounded_div ha hb hne)

theorem roundsTo_mulAdd (ha : toRat? x = some a) (hb : toRat? y = some b) (hc : toRat? z = some c) :
    RoundsTo (a * b + c) (fusedMulAdd x y z) :=
  roundsTo_pack (isRounded_mulAdd (canonical_toModel x) (canonical_toModel y) (canonical_toModel z)
    ha hb hc)

/-- An exact result within a bound below the largest number is not too large. -/
theorem RoundsTo.toRat? (h : RoundsTo q x) (hb : |q| ≤ b) (hdouble : IsDouble b)
    (hlt : b < 2 ^ (1024 : ℤ)) :
    toRat? x = some (rounded q) := by
  cases h with
  | finite h => exact h
  | tooLarge h => exact absurd (h.trans (abs_rounded_le hb hdouble)) hlt.not_ge

theorem isDouble_toRat? (ha : toRat? x = some a) : IsDouble a := (canonical_toModel x).isDouble ha

theorem abs_toRat?_lt (ha : toRat? x = some a) : |a| < 2 ^ (1024 : ℤ) := by
  have hcanonical := canonical_toModel x
  cases hu : x.toModel.unpack with
  | notANumber | infinity => simp [toRat?, hu, value?] at ha
  | zero s =>
    obtain rfl : 0 = a := by simpa [toRat?, hu, value?] using ha
    simp
  | finite s m e hm =>
    obtain rfl : signed s (m * 2 ^ e) = a := by simpa [toRat?, hu, value?] using ha
    have he : e ≤ 971 := exponent_unpack_le hu
    rw [hu] at hcanonical
    have hm' : (m : ℚ) < 2 ^ 53 := by exact_mod_cast hcanonical.1
    rw [abs_signed, abs_of_nonneg (by positivity)]
    calc (m : ℚ) * 2 ^ e < 2 ^ 53 * 2 ^ e := mul_lt_mul_of_pos_right hm' (two_zpow_pos e)
      _ = 2 ^ (53 + e) := (two_zpow_add 53 e).symm
      _ ≤ 2 ^ (1024 : ℤ) := two_zpow_le (by omega)

theorem toRat?_neg (ha : toRat? x = some a) : toRat? (-x) = some (-a) := by
  have hneg : IsRounded x.toModel.unpack.neg (-a) := by
    have hcanonical := canonical_toModel x
    have hdouble := (isDouble_toRat? ha).neg
    rw [toRat?] at ha
    rw [IsRounded, rounded_eq_self hdouble]
    cases hu : x.toModel.unpack with
    | notANumber | infinity => simp [hu, value?] at ha
    | zero s =>
      obtain rfl : 0 = a := by simpa [hu, value?] using ha
      exact ⟨trivial, by simp [UnpackedFloat.neg, value?]⟩
    | finite s m e hm =>
      obtain rfl : signed s (m * 2 ^ e) = a := by simpa [hu, value?] using ha
      rw [hu] at hcanonical
      exact ⟨hcanonical, congrArg some (signed_neg s _)⟩
  have hpack : RoundsTo (-a) (-x) := roundsTo_pack hneg
  have hdouble := (isDouble_toRat? ha).neg
  cases hpack with
  | finite h => rw [h, rounded_eq_self hdouble]
  | tooLarge h =>
    rw [rounded_eq_self hdouble, abs_neg] at h
    exact absurd h (abs_toRat?_lt ha).not_ge

theorem isNaN_pack (h : u = .notANumber) : (Float.ofModel (.pack u)).isNaN := by
  subst h
  rfl

theorem add_notANumber (u : UnpackedFloat) :
    UnpackedFloat.add .binary64 u .notANumber = .notANumber := by
  cases u <;> rfl

theorem mulAdd_notANumber (u w : UnpackedFloat) :
    mulAdd .binary64 u w .notANumber = .notANumber := by
  have h : mulAdd .binary64 u w .notANumber =
      UnpackedFloat.add .binary64 (UnpackedFloat.mul .binary64 u w) .notANumber := by
    cases u <;> cases w <;> rfl
  exact h.trans (add_notANumber _)

theorem isNaN_mulAdd (h : x.isNaN ∨ y.isNaN ∨ z.isNaN) : (fusedMulAdd x y z).isNaN := by
  rw [isNaN_iff_unpack, isNaN_iff_unpack, isNaN_iff_unpack] at h
  apply isNaN_pack (u := mulAdd .binary64 x.toModel.unpack y.toModel.unpack z.toModel.unpack)
  generalize x.toModel.unpack = u at h
  generalize y.toModel.unpack = v at h
  generalize z.toModel.unpack = w at h
  rcases h with rfl | rfl | rfl
  · rfl
  · cases u <;> rfl
  · exact mulAdd_notANumber u v

end WeightPolyhedron.Double
