import WeightPolyhedron.Scalar.Double
import Mathlib

/-!
How double precision orders its numbers around zero. A number that is defined is below zero or from
zero on, and the negative of one from zero on is not above zero, so that what lies below it is
negative.
-/

namespace WeightPolyhedron.Double

open Float.Model (UnpackedFloat Format)
open Float.Model.UnpackedFloat

def sign? : UnpackedFloat → Option Sign
  | .infinity s | .finite s .. => some s
  | .zero _ | .notANumber => none

variable {format : Format} {u w : UnpackedFloat} {s : Sign} {x epsilon : Float}

theorem unpackSign_packComponents {exponent : BitVec format.exponentBits}
    {mantissa : BitVec format.mantissaBitsWithoutImplicit} :
    unpackSign (packComponents format s exponent mantissa) = s.toBitVec := by
  ext i hi
  obtain rfl : i = 0 := by omega
  have habove : ¬ format.mantissaBitsWithoutImplicit + format.exponentBits <
      format.mantissaBitsWithoutImplicit := by omega
  simp [unpackSign, packComponents, Nat.add_comm, BitVec.getElem_append, habove]

/-- The sign of what is unpacked is the sign bit. -/
theorem sign?_unpack {bits : BitVec format.numBits} (h : sign? (unpack format bits) = some s) :
    Sign.ofBitVec (unpackSign bits) = s := by
  revert h
  fun_cases unpack format bits with
  | case1 | case4 | case5 => exact Option.some.inj
  | case2 | case3 => exact fun h => nomatch h

theorem sign?_unpack_packComponents {exponent : BitVec format.exponentBits}
    {mantissa : BitVec format.mantissaBitsWithoutImplicit} {t : Sign}
    (h : sign? (unpack format (packComponents format t exponent mantissa)) = some s) : t = s := by
  rw [← sign?_unpack h, unpackSign_packComponents]
  cases t <;> rfl

/-- Packing moves nothing to the other side of zero. -/
theorem sign?_unpack_pack (h : sign? (unpack .binary64 (pack .binary64 u)) = some s) :
    sign? u = some s := by
  revert h
  fun_cases pack .binary64 u with
  | case1 => exact fun h => nomatch h
  | case2 t => exact fun h => congrArg some (sign?_unpack_packComponents h)
  | case3 t =>
    intro h
    cases t <;> cases h
  | case4 t | case5 t | case6 t => exact fun h => congrArg some (sign?_unpack_packComponents h)

theorem lt_iff {y : Float} :
    x < y ↔ x.toModel.unpack.compare y.toModel.unpack = some .lt := by
  show Float.lt x y = true ↔ _
  unfold Float.lt
  rw [decide_eq_true_iff]
  exact beq_iff_eq

theorem le_iff {y : Float} :
    x ≤ y ↔ (x.toModel.unpack.compare y.toModel.unpack).any (·.isLE) := by
  show Float.le x y = true ↔ _
  unfold Float.le
  rw [decide_eq_true_iff]
  rfl

theorem unpack_zero : (0 : Float).toModel.unpack = .zero .positive := rfl

theorem lt_zero_iff : x < 0 ↔ sign? x.toModel.unpack = some .negative := by
  rw [lt_iff, unpack_zero]
  cases x.toModel.unpack with
  | notANumber => simp [UnpackedFloat.compare, sign?]
  | infinity t | zero t => cases t <;> simp [UnpackedFloat.compare, sign?]
  | finite t m e hm => cases t <;> simp [UnpackedFloat.compare, sign?]

/-- What is not from zero on is below zero or undefined. -/
theorem zero_le_iff : 0 ≤ x ↔ ¬ x < 0 ∧ x.isNaN = false := by
  have hnan : x.isNaN = x.toModel.unpack.isNaN := rfl
  rw [le_iff, lt_zero_iff, unpack_zero, hnan]
  cases x.toModel.unpack with
  | notANumber => simp [UnpackedFloat.compare, sign?, UnpackedFloat.isNaN]
  | infinity t | zero t => cases t <;> simp [UnpackedFloat.compare, sign?, UnpackedFloat.isNaN]
  | finite t m e hm => cases t <;> simp [UnpackedFloat.compare, sign?, UnpackedFloat.isNaN]

/-- Only negative numbers are below one that is not positive. -/
theorem sign?_of_compare (h : u.compare w = some .lt) (hw : sign? w ≠ some .positive) :
    sign? u = some .negative := by
  revert h hw
  fun_cases UnpackedFloat.compare u w with
  | case3 s t =>
    cases s with
    | negative => simp [sign?]
    | positive => cases t <;> simp [sign?, compare]
  | _ => simp_all [sign?]

theorem sign?_of_neg (h : sign? u.neg = some .positive) : sign? u = some .negative := by
  cases u with
  | notANumber | zero => cases h
  | infinity t | finite t => cases t <;> first | rfl | cases h

/-- What lies below the negative of a margin from zero on is negative. -/
theorem lt_zero_of_lt_neg (hepsilon : 0 ≤ epsilon) (h : x < -epsilon) : x < 0 := by
  rw [lt_zero_iff]
  apply sign?_of_compare (lt_iff.1 h)
  intro hpositive
  have hneg : sign? epsilon.toModel.unpack.neg = some .positive := sign?_unpack_pack hpositive
  exact (zero_le_iff.1 hepsilon).1 (lt_zero_iff.2 (sign?_of_neg hneg))

theorem lt_zero_or_zero_le (h : x.isNaN = false) : x < 0 ∨ 0 ≤ x := by
  by_cases hneg : x < 0
  · exact .inl hneg
  · exact .inr (zero_le_iff.2 ⟨hneg, h⟩)

theorem neg_one_ne_zero : ((-1 : Float) == 0) = false := rfl

end WeightPolyhedron.Double
