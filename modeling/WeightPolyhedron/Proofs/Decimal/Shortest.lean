import WeightPolyhedron.Decimal.Shortest
import WeightPolyhedron.Proofs.Scalar.Rounding

/-!
The digits chosen for a double identify it: they make a number of its basin, and all numbers of the
basin are rounded to the double. That they are the fewest plays no part in it.
-/

namespace WeightPolyhedron.Decimal

open Double

variable {b : Basin} {d m : ℕ} {e g : ℤ} {q : ℚ} {x : Numeral}

def Numeral.value (x : Numeral) : ℚ := x.digits * 10 ^ x.exponent

structure Basin.Mem (b : Basin) (q : ℚ) : Prop where
  low_le : b.low * 2 ^ b.scale ≤ q
  le_high : q ≤ b.high * 2 ^ b.scale
  closed_of_eq : b.low * 2 ^ b.scale = q ∨ q = b.high * 2 ^ b.scale → b.closed

/-- A power as a quotient of two powers with natural exponents. -/
theorem zpow_mul_pow_toNat {a : ℚ} (ha : a ≠ 0) (n : ℤ) : a ^ n * a ^ (-n).toNat = a ^ n.toNat := by
  rw [← zpow_natCast, ← zpow_natCast, ← zpow_add₀ ha]
  congr 1
  omega

/-- Both measures are multiples of the same length. -/
theorem Basin.measures_eq (b : Basin) (g : ℤ) : ∃ u : ℚ, 0 < u ∧
    ((b.measures g).1 : ℚ) = 10 ^ g * u ∧ ((b.measures g).2 : ℚ) = 2 ^ b.scale * u := by
  refine ⟨10 ^ (-g).toNat * 2 ^ (-b.scale).toNat, by positivity, ?_, ?_⟩
  · rw [← mul_assoc, zpow_mul_pow_toNat (by norm_num)]
    simp [Basin.measures]
  · rw [mul_left_comm, zpow_mul_pow_toNat (by norm_num), mul_comm]
    simp [Basin.measures]

theorem Basin.mem_of_contains (h : b.contains d g) : b.Mem (d * 10 ^ g) := by
  obtain ⟨u, hu, hstep, hunit⟩ := b.measures_eq g
  have hle (k : ℕ) : k * (b.measures g).2 ≤ d * (b.measures g).1 ↔
      (k : ℚ) * 2 ^ b.scale ≤ d * 10 ^ g := by
    rw [← mul_le_mul_iff_of_pos_right hu, mul_assoc, mul_assoc, ← hstep, ← hunit]
    norm_cast
  have hge (k : ℕ) : d * (b.measures g).1 ≤ k * (b.measures g).2 ↔
      (d : ℚ) * 10 ^ g ≤ k * 2 ^ b.scale := by
    rw [← mul_le_mul_iff_of_pos_right hu, mul_assoc, mul_assoc, ← hstep, ← hunit]
    norm_cast
  unfold Basin.contains at h
  dsimp only at h
  split_ifs at h with hclosed <;> rw [Bool.and_eq_true, decide_eq_true_eq, decide_eq_true_eq] at h
  · exact ⟨(hle _).1 h.1, (hge _).1 h.2, fun _ => hclosed⟩
  · have hlow := not_le.1 (mt (hge _).2 h.1.not_ge)
    have hhigh := not_le.1 (mt (hle _).2 h.2.not_ge)
    exact ⟨hlow.le, hhigh.le, fun hend => (hend.elim hlow.ne hhigh.ne).elim⟩

theorem rounded_eq_of_near {k n : ℤ} (hplace : lastPlace q = n)
    (hnear : |k - q / 2 ^ n| < 1 / 2 ∨ (|k - q / 2 ^ n| = 1 / 2 ∧ k % 2 = 0)) :
    rounded q = k * 2 ^ n := by
  rw [rounded, hplace, nearestEven_eq_iff.2 hnear]

/-- A number of the basin is off by half of the last place at most, and by a quarter where the next
double below is twice as near. -/
theorem near_of_mem (hm : 0 < m) (h : (Basin.ofDouble m e).Mem q) :
    (|m - q / 2 ^ e| < 1 / 2 ∨ (|m - q / 2 ^ e| = 1 / 2 ∧ m % 2 = 0)) ∧
      (m = 2 ^ 52 → -1074 < e → m - 1 / 4 ≤ q / 2 ^ e) := by
  have hpos := two_zpow_pos e
  obtain ⟨t, rfl⟩ : ∃ t, q = t * 2 ^ e := ⟨q / 2 ^ e, (div_mul_cancel₀ q hpos.ne').symm⟩
  rw [mul_div_cancel_right₀ _ hpos.ne']
  have hscale (n : ℚ) : n * 2 ^ (Basin.ofDouble m e).scale = n / 4 * 2 ^ e := by
    change n * (2 : ℚ) ^ (e - 2) = _
    rw [zpow_sub₀ two_ne_zero]
    ring
  have hlow : ((Basin.ofDouble m e).low : ℚ) =
      if m = 2 ^ 52 ∧ -1074 < e then 4 * (m : ℚ) - 1 else 4 * m - 2 := by
    change ((if m = 2 ^ 52 ∧ -1074 < e then 4 * m - 1 else 4 * m - 2 : ℕ) : ℚ) = _
    split_ifs <;> rw [Nat.cast_sub (by omega)] <;> norm_num
  have hhigh : ((Basin.ofDouble m e).high : ℚ) = 4 * m + 2 := by simp [Basin.ofDouble]
  obtain ⟨hlow_le, hle_high, heven⟩ := h
  rw [hscale, mul_le_mul_iff_of_pos_right hpos, hlow] at hlow_le
  rw [hscale, mul_le_mul_iff_of_pos_right hpos, hhigh] at hle_high
  rw [hscale, hscale, mul_left_inj' hpos.ne', mul_left_inj' hpos.ne', hlow, hhigh] at heven
  have heven (hend : t = m + 1 / 2 ∨ (t = m - 1 / 2 ∧ ¬ (m = 2 ^ 52 ∧ -1074 < e))) : m % 2 = 0 := by
    refine of_decide_eq_true (heven (hend.symm.imp ?_ ?_))
    · rintro ⟨rfl, hwide⟩
      rw [if_neg hwide]
      ring
    · rintro rfl
      ring
  have hnear (hlt : (m : ℚ) - 1 / 2 < t) : |m - t| < 1 / 2 ∨ (|m - t| = 1 / 2 ∧ m % 2 = 0) := by
    rcases (by linarith : t ≤ m + 1 / 2).eq_or_lt with rfl | hgt
    · refine .inr ⟨?_, heven (.inl rfl)⟩
      rw [sub_add_cancel_left, abs_neg, abs_of_pos one_half_pos]
    · exact .inl (abs_lt.2 ⟨by linarith, by linarith⟩)
  split_ifs at hlow_le with hnarrow
  · exact ⟨hnear (by linarith), fun _ _ => by linarith⟩
  · refine ⟨?_, fun hm he => absurd ⟨hm, he⟩ hnarrow⟩
    rcases (by linarith : (m : ℚ) - 1 / 2 ≤ t).eq_or_lt with rfl | hlt
    · refine .inr ⟨?_, heven (.inr ⟨rfl, hnarrow⟩)⟩
      rw [sub_sub_cancel, abs_of_pos one_half_pos]
    · exact hnear hlt

/-- Below a power of two the last place is the one before, in which the power is even. -/
theorem rounded_below_power {t : ℚ} (he : -1074 < e) (hlt : t < 2 ^ 52) (hle : 2 ^ 52 - 1 / 4 ≤ t) :
    rounded (t * 2 ^ e) = 2 ^ 52 * 2 ^ e := by
  have hpos := two_zpow_pos (e - 1)
  have hdouble : (2 : ℚ) ^ e = 2 * 2 ^ (e - 1) := by
    rw [zpow_sub_one₀ two_ne_zero]
    ring
  have hq : 0 < t * 2 ^ e := mul_pos (by linarith) (two_zpow_pos e)
  have hscaled : t * 2 ^ e / 2 ^ (e - 1) = 2 * t := by
    rw [hdouble]
    field_simp
  have hplace : lastPlace (t * 2 ^ e) = e - 1 := by
    refine lastPlace_eq hq.ne' (by omega) ?_ (.inr ?_) <;>
      rw [abs_of_pos hq, two_zpow_add, mul_comm ((2 : ℚ) ^ (e - 1)), zpow_ofNat]
    · rw [← div_lt_iff₀ hpos, hscaled]
      linarith
    · rw [← le_div_iff₀ hpos, hscaled]
      linarith
  rw [rounded_eq_of_near (k := 2 ^ 53) hplace]
  · rw [hdouble]
    push_cast
    ring
  · rw [hscaled]
    push_cast
    rw [abs_of_pos (by linarith)]
    rcases hle.eq_or_lt with heq | hlt
    · exact .inr ⟨by linarith, by norm_num⟩
    · exact .inl (by linarith)

/-- The numbers of the basin of a double are rounded to it. -/
theorem rounded_of_mem (hm : 0 < m) (hm' : m < 2 ^ 53) (he : -1074 ≤ e)
    (hfull : 2 ^ 52 ≤ m ∨ e = -1074) (h : (Basin.ofDouble m e).Mem q) : rounded q = m * 2 ^ e := by
  have hpos := two_zpow_pos e
  obtain ⟨hnear, hquarter⟩ := near_of_mem hm h
  obtain ⟨t, rfl⟩ : ∃ t, q = t * 2 ^ e := ⟨q / 2 ^ e, (div_mul_cancel₀ q hpos.ne').symm⟩
  rw [mul_div_cancel_right₀ _ hpos.ne'] at hnear hquarter
  have hbounds : |m - t| ≤ 1 / 2 := hnear.elim le_of_lt (le_of_eq ·.1)
  rw [abs_le] at hbounds
  by_cases hbelow : m = 2 ^ 52 ∧ -1074 < e ∧ t < 2 ^ 52
  · obtain ⟨rfl, he', hlt⟩ := hbelow
    have hquarter := hquarter rfl he'
    push_cast at hquarter ⊢
    exact rounded_below_power he' hlt hquarter
  · have hone : (1 : ℚ) ≤ m := by exact_mod_cast hm
    have hq : 0 < t * 2 ^ e := mul_pos (by linarith) hpos
    have hplace : lastPlace (t * 2 ^ e) = e := by
      refine lastPlace_eq hq.ne' he ?_ ?_
      · have hm' : (m : ℚ) + 1 ≤ 2 ^ 53 := by exact_mod_cast hm'
        rw [abs_of_pos hq, two_zpow_add, mul_comm ((2 : ℚ) ^ e), zpow_ofNat]
        exact mul_lt_mul_of_pos_right (by linarith) hpos
      · refine or_iff_not_imp_left.2 fun hne => ?_
        rw [abs_of_pos hq, two_zpow_add, mul_comm ((2 : ℚ) ^ e), zpow_ofNat]
        refine mul_le_mul_of_nonneg_right ?_ hpos.le
        rcases (hfull.resolve_right hne).eq_or_lt with rfl | hlt
        · exact not_lt.1 fun hlt => hbelow ⟨rfl, by omega, hlt⟩
        · have hlt : ((2 ^ 52 + 1 : ℕ) : ℚ) ≤ m := by exact_mod_cast hlt
          push_cast at hlt
          linarith
    have hround := rounded_eq_of_near (k := m) hplace
    rw [mul_div_cancel_right₀ _ hpos.ne'] at hround
    exact hround (by exact_mod_cast hnear)

/-- A grid point is chosen only if it lies in the basin. -/
theorem Basin.contains_of_nearest? (h : b.nearest? g = some d) : b.contains d g := by
  unfold Basin.nearest? at h
  dsimp only at h
  generalize b.value * (b.measures g).2 / (b.measures g).1 = below at h
  cases hbelow : b.contains below g <;> cases habove : b.contains (below + 1) g <;>
    simp only [hbelow, habove, reduceCtorEq, Option.some.injEq] at h
  · exact h ▸ habove
  · exact h ▸ hbelow
  · split_ifs at h
    · exact h ▸ hbelow
    · exact h ▸ habove

theorem Basin.contains_of_search {n : ℕ} (h : b.search n g = some x) :
    b.contains x.digits x.exponent := by
  induction n generalizing g with
  | zero => cases h
  | succ n ih =>
    rw [Basin.search] at h
    cases hd : b.nearest? g with
    | none => exact ih (by simpa only [hd] using h)
    | some d =>
      obtain rfl : ⟨d, g⟩ = x := by simpa only [hd, Option.some.injEq] using h
      exact Basin.contains_of_nearest? hd

theorem Numeral.value_exact (m : ℕ) (e : ℤ) : (Numeral.exact m e).value = m * 2 ^ e := by
  unfold Numeral.exact
  split_ifs with he
  · obtain ⟨k, rfl⟩ := Int.eq_ofNat_of_zero_le he
    simp [Numeral.value]
  · obtain ⟨k, rfl⟩ := Int.exists_eq_neg_ofNat (by omega : e ≤ 0)
    have hten : (10 : ℚ) ^ k = 2 ^ k * 5 ^ k := by
      rw [← mul_pow]
      norm_num
    simp only [Numeral.value, neg_neg, Int.toNat_natCast, zpow_neg, zpow_natCast, hten, Nat.pow_eq,
      Nat.cast_mul, Nat.cast_pow, Nat.cast_ofNat]
    field_simp

/-- The digits chosen for a double are rounded to it. -/
theorem rounded_shortest (hm : 0 < m) (hm' : m < 2 ^ 53) (he : -1074 ≤ e)
    (hfull : 2 ^ 52 ≤ m ∨ e = -1074) :
    rounded (shortest m e).value = m * 2 ^ e := by
  unfold shortest
  dsimp only
  generalize hfound : (Basin.ofDouble m e).search 20 _ = found
  cases found with
  | some x =>
    exact rounded_of_mem hm hm' he hfull (Basin.mem_of_contains (Basin.contains_of_search hfound))
  | none =>
    rw [Option.getD_none, Numeral.value_exact]
    refine rounded_eq_self ⟨m, e, ?_, he, by simp⟩
    rw [abs_of_nonneg (by omega)]
    exact_mod_cast hm'.le

/-- They are not all zero. -/
theorem digits_shortest_pos (hm : 0 < m) (hm' : m < 2 ^ 53) (he : -1074 ≤ e)
    (hfull : 2 ^ 52 ≤ m ∨ e = -1074) : 0 < (shortest m e).digits := by
  have hround := rounded_shortest hm hm' he hfull
  refine Nat.pos_of_ne_zero fun hzero => ?_
  have hpos : (0 : ℚ) < m * 2 ^ e := mul_pos (by exact_mod_cast hm) (two_zpow_pos e)
  rw [Numeral.value, hzero, Nat.cast_zero, zero_mul, rounded_zero] at hround
  exact hpos.ne hround

end WeightPolyhedron.Decimal
