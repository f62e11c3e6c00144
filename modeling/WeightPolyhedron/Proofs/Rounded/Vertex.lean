import WeightPolyhedron.Proofs.Scalar.Arithmetic
import WeightPolyhedron.Proofs.Log
import WeightPolyhedron.Proofs.Vertex

/-!
Vertices in double precision. The share of an end of an edge is a number from zero to one, unless
the value of the facet at the surviving end is infinite, and then it is undefined. So a weight stays
in the unit box or is undefined as a whole, and what is bounded by a power of two, with room for one
sum, stays so.
-/

namespace WeightPolyhedron

open Double
open Float.Model (UnpackedFloat Format)
open Float.Model.UnpackedFloat

variable {x y t : Float} {a b q r : ℚ}

namespace Double

def Within (b : ℚ) (x : Float) : Prop := ∃ q, toRat? x = some q ∧ |q| ≤ b

def IsShare (x : Float) : Prop := ∃ q, toRat? x = some q ∧ 0 ≤ q ∧ q ≤ 1

theorem IsShare.bounds (h : IsShare x) : 0 ≤ x ∧ x ≤ 1 := by
  obtain ⟨q, hq, h0, h1⟩ := h
  exact ⟨(le_iff_of_toRat? toRat?_zero hq).2 h0, (le_iff_of_toRat? hq toRat?_one).2 h1⟩

theorem IsShare.isFinite (h : IsShare x) : x.isFinite := by
  obtain ⟨q, hq, -⟩ := h
  exact isFinite_iff.2 ⟨q, hq⟩

theorem Within.mono (h : Within a x) (hab : a ≤ b) : Within b x := by
  obtain ⟨q, hq, hle⟩ := h
  exact ⟨q, hq, hle.trans hab⟩

theorem Within.isFinite (h : Within b x) : x.isFinite := by
  obtain ⟨q, hq, -⟩ := h
  exact isFinite_iff.2 ⟨q, hq⟩

/-- A double between a number and its negative is a real number. -/
theorem within_of_bounds (hy : toRat? y = some b) (hlow : -y ≤ x) (hhigh : x ≤ y) : Within b x := by
  have hneg := toRat?_neg hy
  cases hx : toRat? x with
  | some q =>
    exact ⟨q, hx, abs_le.2 ⟨(le_iff_of_toRat? hneg hx).1 hlow, (le_iff_of_toRat? hx hy).1 hhigh⟩⟩
  | none =>
    rw [le_iff] at hlow hhigh
    rw [toRat?] at hx hy hneg
    -- undefined and infinite numbers are not between real ones
    cases hu : x.toModel.unpack with
    | notANumber => simp [hu, UnpackedFloat.compare] at hhigh
    | zero | finite => simp [hu, value?] at hx
    | infinity s =>
      rw [hu] at hlow hhigh
      cases s with
      | positive => cases hw : y.toModel.unpack <;> simp_all [value?, UnpackedFloat.compare]
      | negative => cases hw : (-y).toModel.unpack <;> simp_all [value?, UnpackedFloat.compare]

/-- What an exact result is bounded by, the rounded one is, too. -/
theorem RoundsTo.within (h : RoundsTo q x) (hb : |q| ≤ b) (hdouble : IsDouble b)
    (hlt : b < 2 ^ (1024 : ℤ)) : Within b x :=
  ⟨rounded q, h.toRat? hb hdouble hlt, abs_rounded_le hb hdouble⟩

section Sums

variable {n : ℤ} {k : ℕ}

theorem isDouble_multiple (hn : 0 ≤ n) (hk : k ≤ 2 ^ 53) : IsDouble (k * 2 ^ n) := by
  have h := (isDouble_intCast (n := k) (by rwa [Nat.abs_cast, ← Nat.cast_ofNat, ← Nat.cast_pow,
    Nat.cast_le])).mul_two_zpow hn
  rwa [Int.cast_natCast] at h

/-- One more term of a sum. -/
theorem Within.mulAdd (hx : Within (2 ^ n) x) (hy : IsShare y)
    (ht : Within (k * 2 ^ n) t) (hn : 0 ≤ n)
    (hk : k + 1 ≤ 2 ^ 53) (hlt : (k + 1 : ℕ) * (2 : ℚ) ^ n < 2 ^ (1024 : ℤ)) :
    Within ((k + 1 : ℕ) * 2 ^ n) (fusedMulAdd x y t) := by
  obtain ⟨a, ha, hale⟩ := hx
  obtain ⟨b, hb, hb0, hb1⟩ := hy
  obtain ⟨c, hc, hcle⟩ := ht
  refine (roundsTo_mulAdd ha hb hc).within ?_ (isDouble_multiple hn hk) hlt
  calc |a * b + c| ≤ |a * b| + |c| := abs_add_le _ _
    _ = |a| * b + |c| := by rw [abs_mul, abs_of_nonneg hb0]
    _ ≤ 2 ^ n * 1 + k * 2 ^ n :=
        add_le_add (mul_le_mul hale hb1 hb0 (two_zpow_pos n).le) hcle
    _ = (k + 1 : ℕ) * 2 ^ n := by
        push_cast
        ring

/-- A sum of bounded numbers, each taken with a share, grows by the bound with each term. -/
theorem within_foldl {l : List (Float × Float)} (hl : ∀ e ∈ l, Within (2 ^ n) e.1 ∧ IsShare e.2)
    (ht : Within (k * 2 ^ n) t) (hn : 0 ≤ n) (hk : k + l.length ≤ 2 ^ 53)
    (hlt : (k + l.length : ℕ) * (2 : ℚ) ^ n < 2 ^ (1024 : ℤ)) :
    Within ((k + l.length : ℕ) * 2 ^ n) (l.foldl (fun sum e => fusedMulAdd e.1 e.2 sum) t) := by
  induction l generalizing t k with
  | nil => exact ht
  | cons e l ih =>
    rw [List.forall_mem_cons] at hl
    have hlength : k + (e :: l).length = k + 1 + l.length := by
      rw [List.length_cons]
      omega
    rw [hlength] at hk hlt ⊢
    have hstep : ((k + 1 : ℕ) : ℚ) * 2 ^ n ≤ (k + 1 + l.length : ℕ) * 2 ^ n :=
      mul_le_mul_of_nonneg_right (by exact_mod_cast Nat.le_add_right _ _) (two_zpow_pos n).le
    exact ih hl.2 (hl.1.1.mulAdd hl.1.2 ht hn (by omega) (hstep.trans_lt hlt)) hk hlt

end Sums

/-- Once a sum is undefined it stays so. -/
theorem isNaN_foldl {l : List (Float × Float)} (h : t.isNaN ∨ ∃ e ∈ l, e.2.isNaN) :
    (l.foldl (fun sum e => fusedMulAdd e.1 e.2 sum) t).isNaN := by
  induction l generalizing t with
  | nil => simpa using h
  | cons e l ih =>
    apply ih
    rw [List.exists_mem_cons_iff] at h
    rcases h with h | h | h
    · exact .inl (isNaN_mulAdd (.inr (.inr h)))
    · exact .inl (isNaN_mulAdd (.inr (.inl h)))
    · exact .inr h

end Double

namespace Vertex

/-- What is defined is a real number or infinite. -/
theorem toRat?_or_infinity (h : ¬ x.isNaN) :
    (∃ a, toRat? x = some a) ∨ ∃ s, x.toModel.unpack = .infinity s := by
  rw [isNaN_iff_unpack] at h
  rw [toRat?]
  cases hu : x.toModel.unpack with
  | notANumber => exact absurd hu h
  | infinity s => exact .inr ⟨s, rfl⟩
  | zero | finite => exact .inl ⟨_, rfl⟩

theorem unpack_pack_infinity {u : UnpackedFloat} {s : Sign} (h : u = .infinity s) :
    (Float.ofModel (.pack u)).toModel.unpack = .infinity s := by
  subst h
  exact unpack_packedInfinity s

theorem toRat?_div_infinity {s : Sign} (hy : toRat? y = some b)
    (hx : x.toModel.unpack = .infinity s) :
    toRat? (y / x) = some 0 := by
  have hzero : RoundsTo 0 (y / x) := by
    apply roundsTo_pack (u := UnpackedFloat.div .binary64 y.toModel.unpack x.toModel.unpack)
    rw [hx]
    rw [toRat?] at hy
    cases hu : y.toModel.unpack with
    | notANumber | infinity => simp [hu, value?] at hy
    | zero | finite => exact Canonical.isRounded trivial rfl
  have h := hzero.toRat? (b := 0) (by simp) (isDouble_toRat? toRat?_zero) (two_zpow_pos 1024)
  rwa [rounded_zero] at h

/-- The difference to a negative number is positive and no less than the number itself, or
infinite. -/
theorem sub_of_neg (hx : x < 0) (hy : toRat? y = some b) (hb : 0 ≤ b) :
    (∃ d, toRat? (y - x) = some d ∧ 0 < d ∧ b ≤ d) ∨ ∃ s, (y - x).toModel.unpack = .infinity s := by
  have hdefined : ¬ x.isNaN := fun hnan => by
    rw [lt_zero_iff, isNaN_iff_unpack.1 hnan] at hx
    cases hx
  rcases toRat?_or_infinity hdefined with ⟨a, ha⟩ | ⟨s, hs⟩
  · have hneg : a < 0 := (lt_iff_of_toRat? ha toRat?_zero).1 hx
    cases roundsTo_sub hy ha with
    | finite h =>
      have hle : -a ≤ rounded (b - a) := le_rounded (by linarith) (isDouble_toRat? ha).neg
      have hle' : b ≤ rounded (b - a) := le_rounded (by linarith) (isDouble_toRat? hy)
      exact .inl ⟨_, h, by linarith, hle'⟩
    | tooLarge _ h => exact .inr ⟨_, h⟩
  · refine .inr ⟨-s, ?_⟩
    apply unpack_pack_infinity (u := UnpackedFloat.sub .binary64 y.toModel.unpack x.toModel.unpack)
    rw [hs]
    rw [toRat?] at hy
    cases hu : y.toModel.unpack with
    | notANumber | infinity => simp [hu, value?] at hy
    | zero | finite => rfl

/-- The share is a number from zero to one where the value of the surviving end is finite. -/
theorem isShare_share (hx : x < 0) (hy : toRat? y = some b) (hb : 0 ≤ b) : IsShare (share x y) := by
  rcases sub_of_neg hx hy hb with ⟨d, hd, hpos, hle⟩ | ⟨s, hinf⟩
  · have hquotient := roundsTo_div hy hd hpos.ne'
    have h0 : 0 ≤ b / d := div_nonneg hb hpos.le
    have h1 : b / d ≤ 1 := (div_le_one hpos).2 hle
    have hone : IsDouble (1 : ℚ) := isDouble_toRat? toRat?_one
    refine ⟨rounded (b / d), hquotient.toRat? (abs_le.2 ⟨by linarith, h1⟩) hone ?_,
      rounded_nonneg h0, rounded_le h1 hone⟩
    exact one_lt_zpow₀ one_lt_two (by norm_num)
  · exact ⟨0, toRat?_div_infinity hy hinf, le_rfl, zero_le_one⟩

/-- Otherwise it is undefined. -/
theorem isNaN_share (hx : x < 0) (hy : 0 ≤ y) (hinf : toRat? y = none) : (share x y).isNaN := by
  obtain ⟨hneg, hdefined⟩ := zero_le_iff.1 hy
  rw [lt_zero_iff] at hx hneg
  have hpositive : y.toModel.unpack = .infinity .positive := by
    have hnumber : ¬ y.isNaN := by
      rw [hdefined]
      exact Bool.false_ne_true
    rcases toRat?_or_infinity hnumber with ⟨b, hb⟩ | ⟨s, hs⟩
    · simp [hb] at hinf
    · rw [hs, sign?, Option.some_inj] at hneg
      cases s with
      | positive => exact hs
      | negative => exact absurd rfl hneg
  have hdifference : (y - x).toModel.unpack = .infinity .positive := by
    apply unpack_pack_infinity (u := UnpackedFloat.sub .binary64 y.toModel.unpack x.toModel.unpack)
    rw [hpositive]
    cases hu : x.toModel.unpack with
    | notANumber => simp [hu, sign?] at hx
    | infinity s =>
      rw [hu, sign?, Option.some_inj] at hx
      subst hx
      rfl
    | zero | finite => rfl
  apply isNaN_pack (u := UnpackedFloat.div .binary64 y.toModel.unpack (y - x).toModel.unpack)
  rw [hpositive, hdifference]
  rfl

theorem toRat?_blend {c : ℚ} {z : Float} {n : ℤ} (ht : toRat? t = some q) (h0 : 0 ≤ q) (h1 : q ≤ 1)
    (hx : toRat? x = some a) (hz : toRat? z = some c) (ha : |a| ≤ 2 ^ n)
    (hc : |c| ≤ 2 ^ n) (hn : 0 ≤ n)
    (hlt : n < 1024) : toRat? (blend t x z) = some (blended q a c) := by
  obtain ⟨hnonneg, hle, -⟩ := complement_bounds h0 h1
  have hlarge : (2 : ℚ) ^ n < 2 ^ (1024 : ℤ) := zpow_lt_zpow_right₀ one_lt_two hlt
  have hone : (1 : ℚ) < 2 ^ (1024 : ℤ) := one_lt_zpow₀ one_lt_two (by norm_num)
  have hpower : IsDouble (2 ^ n) := isDouble_two_zpow (by omega)
  have hcomplement : toRat? (1 - t) = some (rounded (1 - q)) :=
    (roundsTo_sub toRat?_one ht).toRat? (abs_le.2 ⟨by linarith, by linarith⟩)
      (isDouble_toRat? toRat?_one)
      hone
  have hsecond : |rounded (1 - q) * c| ≤ 2 ^ n := by
    rw [abs_mul, abs_of_nonneg hnonneg, ← one_mul (2 ^ n)]
    exact mul_le_mul hle hc (abs_nonneg c) zero_le_one
  have hproduct := (roundsTo_mul hcomplement hz).toRat? hsecond hpower hlarge
  cases roundsTo_mulAdd ht hx hproduct with
  | finite h => exact h
  | tooLarge h => exact absurd (h.trans (abs_blended_le h0 h1 ha hc hn)) hlarge.not_ge

theorem isNaN_blend {z : Float} (h : t.isNaN) : (blend t x z).isNaN := isNaN_mulAdd (.inl h)

theorem isShare_blend {z : Float} (ht : IsShare t) (hx : IsShare x) (hz : IsShare z) :
    IsShare (blend t x z) := by
  obtain ⟨q, hq, hq0, hq1⟩ := ht
  obtain ⟨a, ha, ha0, ha1⟩ := hx
  obtain ⟨c, hc, hc0, hc1⟩ := hz
  have hone : (2 : ℚ) ^ (0 : ℤ) = 1 := zpow_zero 2
  have hvalue := toRat?_blend (n := 0) hq hq0 hq1 ha hc (by rw [hone, abs_of_nonneg ha0]; exact ha1)
    (by rw [hone, abs_of_nonneg hc0]; exact hc1) le_rfl (by norm_num)
  exact ⟨_, hvalue, blended_nonneg hq0 hq1 ha0 hc0,
    (blended_le hq0 hq1 (hone ▸ ha1) (hone ▸ hc1) le_rfl).trans_eq hone⟩

theorem within_blend {z : Float} {n : ℤ} (ht : IsShare t) (hx : Within (2 ^ n) x)
    (hz : Within (2 ^ n) z) (hn : 0 ≤ n) (hlt : n < 1024) : Within (2 ^ n) (blend t x z) := by
  obtain ⟨q, hq, hq0, hq1⟩ := ht
  obtain ⟨a, ha, hale⟩ := hx
  obtain ⟨c, hc, hcle⟩ := hz
  exact ⟨_, toRat?_blend hq hq0 hq1 ha hc hale hcle hn hlt, abs_blended_le hq0 hq1 hale hcle hn⟩

end Vertex

namespace Facet

variable {f : Facet Float} {p : ℕ} {weight : List Float} {value : Float} {n : ℤ} {k : ℕ}

def IsWithin (b : ℚ) (f : Facet Float) : Prop := ∀ c ∈ f.coefficients, Within b c

theorem evaluate_eq_foldl (f : Facet Float) (weight : List Float) (value : Float) :
    f.evaluate weight value = (f.weightCoefficients.zip weight).foldl
      (fun sum e => fusedMulAdd e.1 e.2 sum) (f.valueCoefficient * value) := rfl

/-- An undefined weight has no side of a facet. -/
theorem isNaN_evaluate (hf : f.IsReport p) (hlength : weight.length = p) (hx : x ∈ weight)
    (hnan : x.isNaN) : (f.evaluate weight value).isNaN := by
  rw [evaluate_eq_foldl]
  refine isNaN_foldl (.inr ?_)
  obtain ⟨i, hi, rfl⟩ := List.getElem_of_mem hx
  have hi' : i < f.weightCoefficients.length := by
    rw [hf.weightCoefficients_length, ← hlength]
    exact hi
  refine ⟨(f.weightCoefficients[i], weight[i]), ?_, hnan⟩
  rw [List.mem_iff_getElem]
  exact ⟨i, by simp [hi, hi'], by simp⟩

theorem toRat?_valueCoefficient (hf : f.IsReport p) :
    toRat? f.valueCoefficient = some (if f.isVertical then 0 else -1) := by
  rw [hf.valueCoefficient_eq]
  split_ifs
  · exact toRat?_zero
  · exact toRat?_neg toRat?_one

/-- The left-hand side of the inequality is bounded by the value and one term for each objective. -/
theorem within_evaluate (hf : f.IsReport p) (hwithin : f.IsWithin (2 ^ n))
    (hweight : ∀ x ∈ weight, IsShare x) (hlength : weight.length = p)
    (hvalue : Within (k * 2 ^ n) value)
    (hn : 0 ≤ n) (hk : k + p ≤ 2 ^ 53) (hlt : (k + p : ℕ) * (2 : ℚ) ^ n < 2 ^ (1024 : ℤ)) :
    Within ((k + p : ℕ) * 2 ^ n) (f.evaluate weight value) := by
  have hzip : (f.weightCoefficients.zip weight).length = p := by
    rw [List.length_zip, hf.weightCoefficients_length, hlength, min_self]
  have hterms : ∀ e ∈ f.weightCoefficients.zip weight, Within (2 ^ n) e.1 ∧ IsShare e.2 := by
    rintro ⟨c, w⟩ he
    obtain ⟨hc, hw⟩ := List.of_mem_zip he
    exact ⟨hwithin c (List.mem_of_mem_dropLast hc), hweight w hw⟩
  have hfirst : Within (k * 2 ^ n) (f.valueCoefficient * value) := by
    obtain ⟨z, hz, hle⟩ := hvalue
    have hk' : (k : ℚ) * 2 ^ n ≤ (k + p : ℕ) * 2 ^ n :=
      mul_le_mul_of_nonneg_right (by exact_mod_cast Nat.le_add_right k p) (two_zpow_pos n).le
    refine (roundsTo_mul (toRat?_valueCoefficient hf) hz).within ?_
      (isDouble_multiple hn (by omega))
      (hk'.trans_lt hlt)
    split_ifs
    · rw [zero_mul, abs_zero]
      exact mul_nonneg (Nat.cast_nonneg k) (two_zpow_pos n).le
    · rwa [neg_one_mul, abs_neg]
  rw [evaluate_eq_foldl]
  rw [← hzip] at hk hlt ⊢
  exact within_foldl hterms hfirst hn hk hlt

/-- The value at which the facet of a point is tight. -/
theorem within_tightValue (hf : f.IsReport p) (hkind : f.kind = .point)
    (hwithin : f.IsWithin (2 ^ n))
    (hweight : ∀ x ∈ weight, IsShare x) (hlength : weight.length = p) (hn : 0 ≤ n) (hp : p ≤ 2 ^ 53)
    (hlt : p * (2 : ℚ) ^ n < 2 ^ (1024 : ℤ)) (h : f.tightValue? weight = some value) :
    Within (p * 2 ^ n) value := by
  have hcoefficient := toRat?_valueCoefficient hf
  rw [if_neg (by simp [isVertical, hkind])] at hcoefficient
  have hzero : Within ((0 : ℕ) * 2 ^ n) (0 : Float) := ⟨0, toRat?_zero, by simp⟩
  obtain ⟨q, hq, hle⟩ := within_evaluate hf hwithin hweight hlength hzero hn (by rwa [zero_add])
    (by rwa [zero_add])
  rw [zero_add] at hle
  simp only [tightValue?] at h
  split_ifs at h
  obtain rfl := Option.some.inj h
  refine (roundsTo_div (toRat?_neg hq) hcoefficient (by norm_num)).within ?_
    (isDouble_multiple hn hp) hlt
  rwa [neg_div_neg_eq, div_one]

end Facet

namespace Vertex

variable {v u w : Vertex Float} {f : Facet Float} {id : FacetId} {p bound : ℕ}
  {log : FacetLog Float}

def InBox (v : Vertex Float) : Prop := ∀ x ∈ v.weight, IsShare x

def Undefined (v : Vertex Float) : Prop := ∀ x ∈ v.weight, x.isNaN

/-- A vertex at which a facet has a value is in the box. -/
theorem inBox_of_facetValue (h : v.InBox ∨ v.Undefined) (hv : v.IsShaped p bound)
    (hf : f.IsReport p) (hdefined : ¬ (v.facetValue f).isNaN) : v.InBox := by
  intro x hx
  rcases h with h | hnan
  · exact h x hx
  · exact absurd (Facet.isNaN_evaluate hf hv.weight_length hx (hnan x hx)) hdefined

theorem mem_weight_blend {l l' : List Float} (hx : x ∈ List.zipWith (blend t) l l') :
    ∃ y ∈ l, ∃ z ∈ l', x = blend t y z := by
  rw [← List.map_uncurry_zip_eq_zipWith, List.mem_map] at hx
  obtain ⟨⟨y, z⟩, hyz, rfl⟩ := hx
  obtain ⟨hy, hz⟩ := List.of_mem_zip hyz
  exact ⟨y, hy, z, hz, rfl⟩

theorem inBox_corner {i : ℕ} {value : Float} (h : corner? i p value p = some v) : v.InBox := by
  unfold corner? at h
  split_ifs at h
  obtain rfl := Option.some.inj h
  intro x hx
  obtain ⟨k, -, rfl⟩ := List.mem_map.1 hx
  split_ifs
  · exact ⟨1, toRat?_one, zero_le_one, le_rfl⟩
  · exact ⟨0, toRat?_zero, le_rfl, zero_le_one⟩

/-- The ends of an edge that is cut are in the box, and so is the new vertex, unless the value of
the facet at the surviving end is infinite; then its weight is undefined. -/
theorem onEdge_inBox (h : v.onEdge u id f = .ok w) (hv : v.InBox ∨ v.Undefined)
    (hu : u.InBox ∨ u.Undefined) (hvs : v.IsShaped p bound) (hus : u.IsShaped p bound)
    (hf : f.IsReport p) :
    (IsShare (share (v.facetValue f) (u.facetValue f)) ∧ v.InBox ∧ u.InBox ∧ w.InBox) ∨
      (toRat? (u.facetValue f) = none ∧ w.Undefined) := by
  obtain ⟨ha, hb, rfl⟩ := onEdge_eq_ok h
  have hdefined : ¬ (v.facetValue f).isNaN := fun hnan => by
    rw [lt_zero_iff, isNaN_iff_unpack.1 hnan] at ha
    cases ha
  have hbox := inBox_of_facetValue hv hvs hf hdefined
  have hbox' :=
    inBox_of_facetValue hu hus hf (by rw [(zero_le_iff.1 hb).2]; exact Bool.false_ne_true)
  cases hvalue : toRat? (u.facetValue f) with
  | some q =>
    have hshare := isShare_share ha hvalue ((le_iff_of_toRat? toRat?_zero hvalue).1 hb)
    refine .inl ⟨hshare, hbox, hbox', fun x hx => ?_⟩
    obtain ⟨y, hy, z, hz, rfl⟩ := mem_weight_blend hx
    exact isShare_blend hshare (hbox y hy) (hbox' z hz)
  | none =>
    refine .inr ⟨rfl, fun x hx => ?_⟩
    obtain ⟨y, -, z, -, rfl⟩ := mem_weight_blend hx
    exact isNaN_blend (isNaN_share ha hb hvalue)

structure IsNumeric (v : Vertex Float) (b : ℚ) : Prop where
  inBox : v.InBox
  value : Within b v.value

/-- Numbers of objectives and magnitudes for which no sum of products is too large: the sum has room
for one more digit than the value and one term for each objective. -/
structure HasRoom (p n k : ℕ) : Prop where
  objectives_le : p ≤ 2 ^ k
  digits_le : k ≤ 52
  magnitude_le : n + k ≤ 1022

section Numeric

variable {n k : ℕ}

theorem HasRoom.sum_le (h : HasRoom p n k) : 2 ^ k + p ≤ 2 ^ 53 := by
  have hk : 2 ^ k ≤ 2 ^ 52 := Nat.pow_le_pow_right two_pos h.digits_le
  have hp := h.objectives_le
  omega

theorem HasRoom.sum_lt (h : HasRoom p n k) :
    (2 ^ k + p : ℕ) * (2 : ℚ) ^ (n : ℤ) < 2 ^ (1024 : ℤ) := by
  have hsum : ((2 ^ k + p : ℕ) : ℚ) ≤ 2 ^ ((k : ℤ) + 1) := by
    have hp := h.objectives_le
    have h : 2 ^ k + p ≤ 2 ^ (k + 1) := by
      rw [pow_succ]
      omega
    exact_mod_cast h
  have hmagnitude := h.magnitude_le
  calc ((2 ^ k + p : ℕ) : ℚ) * 2 ^ (n : ℤ) ≤ 2 ^ ((k : ℤ) + 1) * 2 ^ (n : ℤ) :=
        mul_le_mul_of_nonneg_right hsum (two_zpow_pos n).le
    _ = 2 ^ ((k : ℤ) + 1 + n) := (two_zpow_add _ _).symm
    _ < 2 ^ (1024 : ℤ) := zpow_lt_zpow_right₀ one_lt_two (by omega)

theorem two_pow_mul (n k : ℕ) : ((2 ^ k : ℕ) : ℚ) * 2 ^ (n : ℤ) = 2 ^ ((n : ℤ) + k) := by
  rw [two_zpow_add, mul_comm, Nat.cast_pow, Nat.cast_ofNat, zpow_natCast 2 k]

/-- The value of a facet at a vertex is a number. -/
theorem IsNumeric.within_facetValue (h : v.IsNumeric (2 ^ ((n : ℤ) + k))) (hv : v.IsShaped p bound)
    (hf : f.IsReport p) (hwithin : f.IsWithin (2 ^ (n : ℤ))) (hroom : HasRoom p n k) :
    Within ((2 ^ k + p : ℕ) * 2 ^ (n : ℤ)) (v.facetValue f) :=
  Facet.within_evaluate hf hwithin h.inBox hv.weight_length (by rw [two_pow_mul]; exact h.value)
    (Int.natCast_nonneg n) hroom.sum_le hroom.sum_lt

theorem IsNumeric.onEdge (h : v.onEdge u id f = .ok w) (hv : v.IsNumeric (2 ^ ((n : ℤ) + k)))
    (hu : u.IsNumeric (2 ^ ((n : ℤ) + k))) (hvs : v.IsShaped p bound) (hus : u.IsShaped p bound)
    (hf : f.IsReport p) (hwithin : f.IsWithin (2 ^ (n : ℤ))) (hroom : HasRoom p n k) :
    w.IsNumeric (2 ^ ((n : ℤ) + k)) := by
  obtain ⟨q, hq, -⟩ := hu.within_facetValue hus hf hwithin hroom
  rcases onEdge_inBox h (.inl hv.inBox) (.inl hu.inBox) hvs hus hf with
    ⟨hshare, -, -, hbox⟩ | ⟨hnone, -⟩
  · refine ⟨hbox, ?_⟩
    have hmagnitude := hroom.magnitude_le
    obtain ⟨-, -, rfl⟩ := onEdge_eq_ok h
    exact within_blend hshare hv.value hu.value (by omega) (by omega)
  · simp [hq] at hnone

theorem IsNumeric.descend (h : v.descend id f log = .ok w) (hv : v.IsNumeric (2 ^ ((n : ℤ) + k)))
    (hvs : v.IsShaped p bound) (hf : f.IsReport p) (hkind : f.kind = .point)
    (hwithin : f.IsWithin (2 ^ (n : ℤ))) (hroom : HasRoom p n k) :
    w.IsNumeric (2 ^ ((n : ℤ) + k)) := by
  obtain ⟨-, replaced, -, -, value, hvalue, rfl⟩ := descend_eq_ok h
  refine ⟨hv.inBox, ?_⟩
  have hle : (p : ℚ) * 2 ^ (n : ℤ) ≤ 2 ^ ((n : ℤ) + k) := by
    rw [← two_pow_mul]
    exact mul_le_mul_of_nonneg_right (by exact_mod_cast hroom.objectives_le) (two_zpow_pos n).le
  have hsum : (p : ℚ) * 2 ^ (n : ℤ) ≤ (2 ^ k + p : ℕ) * 2 ^ (n : ℤ) :=
    mul_le_mul_of_nonneg_right (by exact_mod_cast Nat.le_add_left p _) (two_zpow_pos n).le
  have htight := Facet.within_tightValue hf hkind hwithin hv.inBox hvs.weight_length
    (Int.natCast_nonneg n) ((Nat.le_add_left p _).trans hroom.sum_le)
    (hsum.trans_lt hroom.sum_lt) hvalue
  exact htight.mono hle

end Numeric

end Vertex

end WeightPolyhedron
