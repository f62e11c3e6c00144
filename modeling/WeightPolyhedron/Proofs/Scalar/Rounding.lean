import Mathlib

/-!
Rounding to double precision as a function on rational numbers, with no bound above. A number is
rounded to a multiple of its last place, of which it has 53 binary digits or, near zero, fewer. The
result is a number of the format as near as any other, which is all that most bounds need.
-/

namespace WeightPolyhedron.Double

variable {x y : ℚ} {n : ℤ}

def nearestEven (x : ℚ) : ℤ :=
  if 2 * Int.fract x < 1 ∨ (2 * Int.fract x = 1 ∧ ⌊x⌋ % 2 = 0) then ⌊x⌋ else ⌊x⌋ + 1

theorem nearestEven_spec (x : ℚ) :
    |(nearestEven x : ℚ) - x| < 1 / 2 ∨
      (|(nearestEven x : ℚ) - x| = 1 / 2 ∧ nearestEven x % 2 = 0) := by
  have hfract : (⌊x⌋ : ℚ) - x = -Int.fract x := by rw [Int.fract]; ring
  have hnonneg := Int.fract_nonneg x
  have hlt := Int.fract_lt_one x
  unfold nearestEven
  split_ifs with h
  · rw [hfract, abs_neg, abs_of_nonneg hnonneg]
    rcases h with h | ⟨h, heven⟩
    · exact .inl (by linarith)
    · exact .inr ⟨by linarith, heven⟩
  · rw [not_or, not_lt, not_and] at h
    have habove : (((⌊x⌋ + 1 : ℤ) : ℚ)) - x = 1 - Int.fract x := by push_cast; linarith
    rw [habove, abs_of_pos (by linarith)]
    rcases h.1.lt_or_eq with hgt | heq
    · exact .inl (by linarith)
    · have hodd := h.2 heq.symm
      exact .inr ⟨by linarith, by omega⟩

theorem abs_nearestEven_sub_le (x : ℚ) : |(nearestEven x : ℚ) - x| ≤ 1 / 2 := by
  rcases nearestEven_spec x with h | h
  exacts [h.le, h.1.le]

/-- The condition determines the integer. -/
theorem nearestEven_eq_iff :
    nearestEven x = n ↔ |(n : ℚ) - x| < 1 / 2 ∨ (|(n : ℚ) - x| = 1 / 2 ∧ n % 2 = 0) := by
  refine ⟨fun h => h ▸ nearestEven_spec x, fun h => ?_⟩
  by_contra hne
  have hspec := nearestEven_spec x
  have hapart : (1 : ℚ) ≤ |(nearestEven x : ℚ) - n| := by
    exact_mod_cast Int.one_le_abs (sub_ne_zero.2 hne)
  have htriangle := abs_sub_le (nearestEven x : ℚ) x n
  rw [abs_sub_comm x n] at htriangle
  have hn : |(n : ℚ) - x| ≤ 1 / 2 := by
    rcases h with h | h
    exacts [h.le, h.1.le]
  have hx := abs_nearestEven_sub_le x
  -- both are halfway, so both are even, but they are consecutive
  have hhalf : |(n : ℚ) - x| = 1 / 2 := by linarith
  have hhalf' : |(nearestEven x : ℚ) - x| = 1 / 2 := by linarith
  have heven : n % 2 = 0 := by
    rcases h with h | h
    exacts [absurd hhalf h.ne, h.2]
  have heven' : nearestEven x % 2 = 0 := by
    rcases hspec with h | h
    exacts [absurd hhalf' h.ne, h.2]
  have hone : |nearestEven x - n| = 1 := by
    have h : |(nearestEven x : ℚ) - n| = 1 := by linarith
    exact_mod_cast h
  rcases (abs_eq zero_le_one).1 hone with h | h <;> omega

theorem nearestEven_intCast (n : ℤ) : nearestEven n = n := nearestEven_eq_iff.2 (.inl (by simp))

theorem nearestEven_neg (x : ℚ) : nearestEven (-x) = -nearestEven x := by
  rw [nearestEven_eq_iff]
  push_cast
  rw [neg_sub_neg, abs_sub_comm, Int.neg_emod_two]
  exact nearestEven_spec x

/-- No integer is nearer. -/
theorem abs_nearestEven_sub_le_abs (x : ℚ) (n : ℤ) : |(nearestEven x : ℚ) - x| ≤ |(n : ℚ) - x| := by
  by_cases hne : nearestEven x = n
  · rw [hne]
  have hapart : (1 : ℚ) ≤ |(nearestEven x : ℚ) - n| := by
    exact_mod_cast Int.one_le_abs (sub_ne_zero.2 hne)
  have htriangle := abs_sub_le (nearestEven x : ℚ) x n
  rw [abs_sub_comm x n] at htriangle
  linarith [abs_nearestEven_sub_le x]

/-- The exponent of the last place that a number keeps. -/
def lastPlace (x : ℚ) : ℤ := max (Int.log 2 |x| - 52) (-1074)

def rounded (x : ℚ) : ℚ := nearestEven (x / 2 ^ lastPlace x) * 2 ^ lastPlace x

/-- The numbers of the format, were it not for the bound above. -/
def IsDouble (y : ℚ) : Prop := ∃ k f : ℤ, |k| ≤ 2 ^ 53 ∧ -1074 ≤ f ∧ y = k * 2 ^ f

theorem two_zpow_pos (n : ℤ) : (0 : ℚ) < 2 ^ n := zpow_pos two_pos n

theorem two_zpow_add (m n : ℤ) : (2 : ℚ) ^ (m + n) = 2 ^ m * 2 ^ n := zpow_add₀ two_ne_zero m n

theorem two_zpow_le {m n : ℤ} (h : m ≤ n) : (2 : ℚ) ^ m ≤ 2 ^ n := zpow_le_zpow_right₀ one_le_two h

theorem lastPlace_ge (x : ℚ) : -1074 ≤ lastPlace x := le_max_right ..

theorem lastPlace_neg (x : ℚ) : lastPlace (-x) = lastPlace x := by simp [lastPlace]

/-- No number has more than 53 digits up to its last place. -/
theorem abs_lt_of_lastPlace (x : ℚ) : |x| < 2 ^ (lastPlace x + 53) := by
  have hlog : |x| < 2 ^ (Int.log 2 |x| + 1) := by
    exact_mod_cast Int.lt_zpow_succ_log_self one_lt_two |x|
  refine hlog.trans_le (two_zpow_le ?_)
  unfold lastPlace
  omega

/-- Above the least place, a number has all its 53 digits. -/
theorem le_abs_of_lastPlace (hx : x ≠ 0) (h : -1074 < lastPlace x) :
    2 ^ (lastPlace x + 52) ≤ |x| := by
  have hlog : Int.log 2 |x| = lastPlace x + 52 := by
    unfold lastPlace at h ⊢
    omega
  rw [← hlog]
  exact_mod_cast Int.zpow_log_le_self one_lt_two (abs_pos.2 hx)

/-- The bounds determine the last place. -/
theorem lastPlace_eq (hx : x ≠ 0) (hn : -1074 ≤ n) (hlt : |x| < 2 ^ (n + 53))
    (hle : n = -1074 ∨ 2 ^ (n + 52) ≤ |x|) : lastPlace x = n := by
  have hbelow : Int.log 2 |x| < n + 53 :=
    (Int.lt_zpow_iff_log_lt one_lt_two (abs_pos.2 hx)).1 (by exact_mod_cast hlt)
  unfold lastPlace
  rcases hle with rfl | hle
  · omega
  · have habove : n + 52 ≤ Int.log 2 |x| :=
      (Int.zpow_le_iff_le_log one_lt_two (abs_pos.2 hx)).1 (by exact_mod_cast hle)
    omega

theorem IsDouble.neg (h : IsDouble y) : IsDouble (-y) := by
  obtain ⟨k, f, hk, hf, rfl⟩ := h
  exact ⟨-k, f, by rwa [abs_neg], hf, by push_cast; ring⟩

theorem isDouble_intCast (h : |n| ≤ 2 ^ 53) : IsDouble n := ⟨n, 0, h, by norm_num, by simp⟩

theorem isDouble_two_zpow (h : -1074 ≤ n) : IsDouble (2 ^ n) := ⟨1, n, by norm_num, h, by simp⟩

theorem rounded_zero : rounded 0 = 0 := by
  have h := nearestEven_intCast 0
  simp_all [rounded]

theorem rounded_neg (x : ℚ) : rounded (-x) = -rounded x := by
  rw [rounded, lastPlace_neg, neg_div, nearestEven_neg, rounded]
  push_cast
  ring

theorem isDouble_rounded (x : ℚ) : IsDouble (rounded x) := by
  rcases eq_or_ne x 0 with rfl | hx
  · rw [rounded_zero]
    exact isDouble_intCast (n := 0) (by norm_num)
  refine ⟨nearestEven (x / 2 ^ lastPlace x), lastPlace x, ?_, lastPlace_ge x, rfl⟩
  have hscaled : |x / 2 ^ lastPlace x| < 2 ^ 53 := by
    rw [abs_div, abs_of_pos (two_zpow_pos _), div_lt_iff₀ (two_zpow_pos _), mul_comm]
    exact (abs_lt_of_lastPlace x).trans_eq (two_zpow_add _ 53)
  have hnear := abs_nearestEven_sub_le (x / 2 ^ lastPlace x)
  have hsub := abs_sub_abs_le_abs_sub (nearestEven (x / 2 ^ lastPlace x) : ℚ) (x / 2 ^ lastPlace x)
  have hlt : |(nearestEven (x / 2 ^ lastPlace x) : ℚ)| < 2 ^ 53 + 1 := by linarith
  have hlt : |nearestEven (x / 2 ^ lastPlace x)| < 2 ^ 53 + 1 := by exact_mod_cast hlt
  omega

/-- A multiple of the last place is no nearer than what a number is rounded to. -/
theorem abs_rounded_sub_le_of_multiple (x : ℚ) (k : ℤ) :
    |rounded x - x| ≤ |k * 2 ^ lastPlace x - x| := by
  have hpos := two_zpow_pos (lastPlace x)
  have hscale (n : ℤ) :
      |n * 2 ^ lastPlace x - x| = |(n : ℚ) - x / 2 ^ lastPlace x| * 2 ^ lastPlace x := by
    rw [← abs_of_pos hpos, ← abs_mul, abs_of_pos hpos, sub_mul, div_mul_cancel₀ _ hpos.ne']
  rw [rounded, hscale, hscale]
  exact mul_le_mul_of_nonneg_right (abs_nearestEven_sub_le_abs _ k) hpos.le

/-- Nor is a number below the least one that has 53 digits up to the last place. -/
theorem abs_rounded_sub_le_of_power (hx : 2 ^ (lastPlace x + 52) ≤ x)
    (hy : y ≤ 2 ^ (lastPlace x + 52)) : |rounded x - x| ≤ |y - x| := by
  have hpower : (2 : ℚ) ^ (lastPlace x + 52) = (2 ^ 52 : ℤ) * 2 ^ lastPlace x := by
    rw [two_zpow_add]
    push_cast
    ring
  calc |rounded x - x| ≤ |2 ^ (lastPlace x + 52) - x| :=
        hpower ▸ abs_rounded_sub_le_of_multiple x (2 ^ 52)
    _ = x - 2 ^ (lastPlace x + 52) := by rw [abs_of_nonpos (by linarith), neg_sub]
    _ ≤ x - y := by linarith
    _ = |y - x| := by rw [abs_of_nonpos (by linarith), neg_sub]

/-- No number of the format is nearer. Those with more places than the last one lie below all that
have 53 digits up to it. -/
theorem abs_rounded_sub_le (x : ℚ) (hy : IsDouble y) : |rounded x - x| ≤ |y - x| := by
  rcases eq_or_ne x 0 with rfl | hx
  · simp [rounded_zero]
  obtain ⟨k, f, hk, hf, rfl⟩ := hy
  by_cases hplace : lastPlace x ≤ f
  · obtain ⟨d, rfl⟩ := Int.le.dest hplace
    have hmultiple : (k : ℚ) * 2 ^ (lastPlace x + d) = (k * 2 ^ d : ℤ) * 2 ^ lastPlace x := by
      rw [two_zpow_add, zpow_natCast]
      push_cast
      ring
    rw [hmultiple]
    exact abs_rounded_sub_le_of_multiple x _
  have hfull := le_abs_of_lastPlace hx (by omega)
  have hsmall : |(k : ℚ) * 2 ^ f| ≤ 2 ^ (lastPlace x + 52) := by
    have hk : |(k : ℚ)| ≤ 2 ^ 53 := by exact_mod_cast hk
    calc |(k : ℚ) * 2 ^ f| = |(k : ℚ)| * 2 ^ f := by rw [abs_mul, abs_of_pos (two_zpow_pos f)]
      _ ≤ 2 ^ 53 * 2 ^ f := mul_le_mul_of_nonneg_right hk (two_zpow_pos f).le
      _ = 2 ^ (53 + f) := (two_zpow_add 53 f).symm
      _ ≤ 2 ^ (lastPlace x + 52) := two_zpow_le (by omega)
  rcases abs_cases x with ⟨habs, -⟩ | ⟨habs, -⟩
  · exact abs_rounded_sub_le_of_power (hfull.trans_eq habs) ((le_abs_self _).trans hsmall)
  · have hneg := abs_rounded_sub_le_of_power (x := -x) (y := -(k * 2 ^ f))
      (by rwa [lastPlace_neg, ← habs]) (by rw [lastPlace_neg]; exact (neg_le_abs _).trans hsmall)
    rwa [rounded_neg, neg_sub_neg, neg_sub_neg, abs_sub_comm, abs_sub_comm x] at hneg

theorem rounded_eq_self (h : IsDouble x) : rounded x = x := by
  have hnear := abs_rounded_sub_le x h
  rw [sub_self, abs_zero] at hnear
  exact sub_eq_zero.1 (abs_nonpos_iff.1 hnear)

/-- Rounding does not pass a number of the format. -/
theorem rounded_le (h : x ≤ y) (hy : IsDouble y) : rounded x ≤ y := by
  by_contra hlt
  have hnear := abs_rounded_sub_le x hy
  rw [abs_of_nonneg (by linarith), abs_of_nonneg (by linarith)] at hnear
  linarith

theorem le_rounded (h : y ≤ x) (hy : IsDouble y) : y ≤ rounded x := by
  have hneg := rounded_le (neg_le_neg h) hy.neg
  rw [rounded_neg] at hneg
  exact neg_le_neg_iff.1 hneg

theorem abs_rounded_le (h : |x| ≤ y) (hy : IsDouble y) : |rounded x| ≤ y :=
  abs_le.2 ⟨le_rounded (abs_le.1 h).1 hy.neg, rounded_le (abs_le.1 h).2 hy⟩

theorem rounded_nonneg (h : 0 ≤ x) : 0 ≤ rounded x :=
  le_rounded h (isDouble_intCast (n := 0) (by norm_num))

theorem rounded_nonpos (h : x ≤ 0) : rounded x ≤ 0 :=
  rounded_le h (isDouble_intCast (n := 0) (by norm_num))

theorem IsDouble.mul_two_zpow (h : IsDouble y) (hn : 0 ≤ n) : IsDouble (y * 2 ^ n) := by
  obtain ⟨k, f, hk, hf, rfl⟩ := h
  exact ⟨k, f + n, hk, by omega, by rw [two_zpow_add, mul_assoc]⟩

/-- A number up to a power of two is off by half of the last place below that power at most. -/
theorem abs_rounded_sub_le_half (h : |x| ≤ 2 ^ n) (hn : -1021 ≤ n) :
    |rounded x - x| ≤ 2 ^ (n - 54) := by
  have hpos := two_zpow_pos (n - 53)
  have hnear := abs_nearestEven_sub_le (x / 2 ^ (n - 53))
  have hscaled : |x / 2 ^ (n - 53)| ≤ 2 ^ 53 := by
    rw [abs_div, abs_of_pos hpos, div_le_iff₀ hpos]
    calc |x| ≤ 2 ^ (53 + (n - 53)) := by rwa [add_sub_cancel]
      _ = 2 ^ 53 * 2 ^ (n - 53) := two_zpow_add 53 _
  have hint : IsDouble (nearestEven (x / 2 ^ (n - 53)) * 2 ^ (n - 53)) := by
    refine ⟨nearestEven (x / 2 ^ (n - 53)), n - 53, ?_, by omega, rfl⟩
    have hsub := abs_sub_abs_le_abs_sub (nearestEven (x / 2 ^ (n - 53)) : ℚ) (x / 2 ^ (n - 53))
    have hlt : |(nearestEven (x / 2 ^ (n - 53)) : ℚ)| < 2 ^ 53 + 1 := by linarith
    have hlt : |nearestEven (x / 2 ^ (n - 53))| < 2 ^ 53 + 1 := by exact_mod_cast hlt
    omega
  calc |rounded x - x| ≤ |nearestEven (x / 2 ^ (n - 53)) * 2 ^ (n - 53) - x| :=
        abs_rounded_sub_le x hint
    _ = |nearestEven (x / 2 ^ (n - 53)) - x / 2 ^ (n - 53)| * 2 ^ (n - 53) := by
        rw [← abs_of_pos hpos, ← abs_mul, abs_of_pos hpos, sub_mul, div_mul_cancel₀ _ hpos.ne']
    _ ≤ 1 / 2 * 2 ^ (n - 53) := mul_le_mul_of_nonneg_right hnear hpos.le
    _ = 2 ^ (n - 54) := by
        rw [show n - 53 = n - 54 + 1 by ring, two_zpow_add, zpow_one]
        ring

/-- The least number of the format above a power of two. -/
theorem IsDouble.le_of_two_zpow_lt (h : IsDouble y) (hlt : 2 ^ n < y) :
    2 ^ n + 2 ^ (n - 52) ≤ y := by
  obtain ⟨k, f, hk, -, rfl⟩ := h
  have hk : |(k : ℚ)| ≤ 2 ^ 53 := by exact_mod_cast hk
  have hf : n - 52 ≤ f := by
    by_contra hf
    have hle : (k : ℚ) * 2 ^ f ≤ 2 ^ n := calc
      (k : ℚ) * 2 ^ f ≤ 2 ^ 53 * 2 ^ f :=
        mul_le_mul_of_nonneg_right ((le_abs_self _).trans hk) (two_zpow_pos f).le
      _ = 2 ^ (53 + f) := (two_zpow_add 53 f).symm
      _ ≤ 2 ^ n := two_zpow_le (by omega)
    exact hlt.not_ge hle
  obtain ⟨d, rfl⟩ := Int.le.dest hf
  have hpower : (2 : ℚ) ^ n = (2 ^ 52 : ℤ) * 2 ^ (n - 52) := by
    rw [show n = 52 + (n - 52) by ring, two_zpow_add, add_sub_cancel_left]
    push_cast
    rfl
  have hmultiple : (k : ℚ) * 2 ^ (n - 52 + d) = (k * 2 ^ d : ℤ) * 2 ^ (n - 52) := by
    rw [two_zpow_add, zpow_natCast]
    push_cast
    ring
  rw [hmultiple, hpower] at hlt ⊢
  have hlt : (2 ^ 52 : ℤ) < k * 2 ^ d := by
    exact_mod_cast lt_of_mul_lt_mul_right hlt (two_zpow_pos _).le
  have hle : ((2 ^ 52 : ℤ) : ℚ) + 1 ≤ (k * 2 ^ d : ℤ) := by exact_mod_cast hlt
  calc
    ((2 ^ 52 : ℤ) : ℚ) * 2 ^ (n - 52) + 2 ^ (n - 52) =
        (((2 ^ 52 : ℤ) : ℚ) + 1) * 2 ^ (n - 52) := by
        ring
    _ ≤ (k * 2 ^ d : ℤ) * 2 ^ (n - 52) := mul_le_mul_of_nonneg_right hle (two_zpow_pos _).le

/-- What exceeds a power of two by less than half of a last place is rounded down to it. -/
theorem rounded_le_two_zpow (h : x ≤ 2 ^ n + 2 ^ (n - 54)) (hn : -1074 ≤ n) :
    rounded x ≤ 2 ^ n := by
  by_contra hlt
  have hgap := (isDouble_rounded x).le_of_two_zpow_lt (not_le.1 hlt)
  have hnear := abs_rounded_sub_le x (isDouble_two_zpow hn)
  have hfour : (2 : ℚ) ^ (n - 52) = 4 * 2 ^ (n - 54) := by
    rw [show n - 52 = 2 + (n - 54) by ring, two_zpow_add]
    norm_num
  have hpos := two_zpow_pos (n - 54)
  have habove : rounded x - x ≤ |rounded x - x| := le_abs_self _
  rcases abs_cases (2 ^ n - x) with ⟨habs, -⟩ | ⟨habs, -⟩ <;> linarith

/-- `t * a + (1 - t) * b`, rounded as it is computed: the first term and the sum at once. -/
def blended (t a b : ℚ) : ℚ := rounded (t * a + rounded (rounded (1 - t) * b))

section Blended

variable {t a b : ℚ}

/-- The rounded complement of a share is a share, and the two sum up to one but for half a last
place. -/
theorem complement_bounds (h0 : 0 ≤ t) (h1 : t ≤ 1) :
    0 ≤ rounded (1 - t) ∧ rounded (1 - t) ≤ 1 ∧ t + rounded (1 - t) ≤ 1 + 2 ^ (-54 : ℤ) := by
  have hdouble : IsDouble (1 : ℚ) := by simpa using isDouble_intCast (n := 1) (by norm_num)
  refine ⟨rounded_nonneg (by linarith), rounded_le (by linarith) hdouble, ?_⟩
  have hsmall : |1 - t| ≤ 2 ^ (0 : ℤ) := by
    rw [abs_of_nonneg (by linarith), zpow_zero]
    linarith
  have hnear := abs_rounded_sub_le_half hsmall (by norm_num)
  rw [zero_sub] at hnear
  linarith [le_abs_self (rounded (1 - t) - (1 - t))]

/-- A mean does not leave a range that is bounded by a power of two. -/
theorem blended_le (h0 : 0 ≤ t) (h1 : t ≤ 1) (ha : a ≤ 2 ^ n) (hb : b ≤ 2 ^ n) (hn : 0 ≤ n) :
    blended t a b ≤ 2 ^ n := by
  obtain ⟨hnonneg, -, hsum⟩ := complement_bounds h0 h1
  have hsecond : rounded (rounded (1 - t) * b) ≤ rounded (1 - t) * 2 ^ n :=
    rounded_le (mul_le_mul_of_nonneg_left hb hnonneg) ((isDouble_rounded _).mul_two_zpow hn)
  refine rounded_le_two_zpow ?_ (by omega)
  calc t * a + rounded (rounded (1 - t) * b) ≤ t * 2 ^ n + rounded (1 - t) * 2 ^ n :=
        add_le_add (mul_le_mul_of_nonneg_left ha h0) hsecond
    _ = (t + rounded (1 - t)) * 2 ^ n := by ring
    _ ≤ (1 + 2 ^ (-54 : ℤ)) * 2 ^ n := mul_le_mul_of_nonneg_right hsum (two_zpow_pos n).le
    _ = 2 ^ n + 2 ^ (n - 54) := by
        rw [show n - 54 = -54 + n by ring, two_zpow_add]
        ring

theorem blended_nonneg (h0 : 0 ≤ t) (h1 : t ≤ 1) (ha : 0 ≤ a) (hb : 0 ≤ b) : 0 ≤ blended t a b :=
  rounded_nonneg (add_nonneg (mul_nonneg h0 ha)
    (rounded_nonneg (mul_nonneg (complement_bounds h0 h1).1 hb)))

theorem blended_neg (t a b : ℚ) : blended t (-a) (-b) = -blended t a b := by
  rw [blended, mul_neg, mul_neg, rounded_neg, ← neg_add, rounded_neg, blended]

theorem abs_blended_le (h0 : 0 ≤ t) (h1 : t ≤ 1) (ha : |a| ≤ 2 ^ n) (hb : |b| ≤ 2 ^ n)
    (hn : 0 ≤ n) :
    |blended t a b| ≤ 2 ^ n := by
  rw [abs_le'] at ha hb ⊢
  refine ⟨blended_le h0 h1 ha.1 hb.1 hn, ?_⟩
  rw [← blended_neg]
  exact blended_le h0 h1 ha.2 hb.2 hn

end Blended

end WeightPolyhedron.Double
