import WeightPolyhedron.Proofs.Json.Reading
import WeightPolyhedron.Proofs.Decimal.Shortest
import WeightPolyhedron.Proofs.Scalar.Scientific

/-!
Reading numbers that were written. The digits, the point and the exponent that a layout chooses make
a number with the value of the digits, a reader finds these parts again, and of a double they give
the same one back, because the digits chosen for it are rounded to it.
-/

namespace WeightPolyhedron.Json

open Decimal Double
open Float.Model.UnpackedFloat (Sign)

variable {ds rest : List Char} {n : ℕ} {x : Float}

theorem digits_append (hds : ∀ c ∈ ds, c.isDigit) (hrest : ∀ c ∈ rest.head?, ¬ c.isDigit) :
    digits (ds ++ rest) = .ok (ds, rest) := by
  have htake : rest.takeWhile Char.isDigit = [] ∧ rest.dropWhile Char.isDigit = rest := by
    cases rest with
    | nil => exact ⟨rfl, rfl⟩
    | cons c rest =>
      have hc : ¬ c.isDigit := hrest c rfl
      exact ⟨List.takeWhile_cons_of_neg hc, List.dropWhile_cons_of_neg hc⟩
  change Except.ok ((ds ++ rest).takeWhile Char.isDigit, (ds ++ rest).dropWhile Char.isDigit) = _
  rw [List.takeWhile_append_of_pos hds, List.dropWhile_append_of_pos hds, htake.1, htake.2,
    List.append_nil]

theorem someDigits_append (hne : ds ≠ []) (hds : ∀ c ∈ ds, c.isDigit)
    (hrest : ∀ c ∈ rest.head?, ¬ c.isDigit) : someDigits (ds ++ rest) = .ok (ds, rest) := by
  rw [someDigits, bind_of_ok _ (digits_append hds hrest)]
  cases ds with
  | nil => exact absurd rfl hne
  | cons c ds => rfl

structure IsWhole (ds : List Char) : Prop where
  isDigit : ∀ c ∈ ds, c.isDigit
  ne_nil : ds ≠ []
  leading : ds.head? = some '0' → ds = ['0']

theorem wholePart_append (h : IsWhole ds) (hrest : ∀ c ∈ rest.head?, ¬ c.isDigit) :
    wholePart (ds ++ rest) = .ok (ds, rest) := by
  obtain ⟨hds, hne, hleading⟩ := h
  rw [wholePart, bind_of_ok _ (digits_append hds hrest)]
  split
  · exact absurd rfl hne
  · exact absurd (hleading rfl) (by simp)
  · rfl

theorem valueOf_toDigits (n : ℕ) : valueOf (Nat.toDigits 10 n) = n := Nat.ofDigitChars_ten_toDigits

theorem isDigit_toDigits : ∀ c ∈ Nat.toDigits 10 n, c.isDigit :=
  fun _ => Nat.isDigit_of_mem_toDigits (by norm_num) le_rfl

/-- The digits of a positive number do not start with a zero. -/
theorem head?_toDigits_ne (hn : 0 < n) : (Nat.toDigits 10 n).head? ≠ some '0' := by
  induction n using Nat.strong_induction_on with
  | _ n ih =>
    rw [Nat.toDigits_eq_if (by norm_num)]
    split_ifs with hlt
    · interval_cases n <;> decide
    · rw [List.head?_append_of_ne_nil _ Nat.toDigits_ne_nil]
      exact ih (n / 10) (by omega) (by omega)

theorem isWhole_toDigits (n : ℕ) : IsWhole (Nat.toDigits 10 n) := by
  refine ⟨isDigit_toDigits, Nat.toDigits_ne_nil, fun hzero => ?_⟩
  rcases Nat.eq_zero_or_pos n with rfl | hn
  · rfl
  · exact absurd hzero (head?_toDigits_ne hn)

theorem toList_toString_int (k : ℤ) : (toString k).toList =
    if 0 ≤ k then Nat.toDigits 10 k.toNat else '-' :: Nat.toDigits 10 (-k).toNat := by
  rw [Int.toString_eq_repr, Int.repr_eq_if]
  split_ifs <;> simp [Nat.repr_eq_ofList_toDigits]

theorem starts_number {c : Char} (hc : c = '-' ∨ c.isDigit) : isBlank c = false ∧ c ≠ ']' := by
  constructor
  · rw [Bool.eq_false_iff]
    intro hblank
    simp only [isBlank, Bool.or_eq_true, decide_eq_true_eq] at hblank
    rcases hblank with ((rfl | rfl) | rfl) | rfl <;> exact absurd hc (by decide)
  · rintro rfl
    exact absurd hc (by decide)

structure Written where
  negative : Bool
  before : List Char
  behind : List Char
  exponent? : Option ℤ

namespace Written

def fractionChars (w : Written) : List Char := if w.behind.isEmpty then [] else '.' :: w.behind

def exponentChars (w : Written) : List Char :=
  match w.exponent? with
  | none => []
  | some k => 'e' :: (toString k).toList

def unsignedChars (w : Written) : List Char := w.before ++ (w.fractionChars ++ w.exponentChars)

def chars (w : Written) : List Char := (if w.negative then ['-'] else []) ++ w.unsignedChars

def number (w : Written) : Number where
  negative := w.negative
  digits := valueOf (w.before ++ w.behind)
  exponent := w.exponent?.getD 0 - w.behind.length
  whole := w.behind.isEmpty && w.exponent?.isNone

structure WellFormed (w : Written) : Prop where
  before : IsWhole w.before
  behind : ∀ c ∈ w.behind, c.isDigit

variable {w : Written}

/-- What follows the digits behind the point is neither a point nor a digit. -/
theorem head?_exponentChars (hrest : Ends rest) :
    ∀ c ∈ (w.exponentChars ++ rest).head?, c ≠ '.' ∧ ¬ c.isDigit := by
  unfold exponentChars
  cases w.exponent? with
  | none =>
    intro c hc
    rcases hrest c hc with rfl | rfl | rfl <;> decide
  | some k =>
    intro c hc
    obtain rfl : 'e' = c := Option.some.inj hc
    decide

theorem exponent?_cons (k : ℤ) (hrest : ∀ c ∈ rest.head?, ¬ c.isDigit) :
    Json.exponent? ('e' :: ((toString k).toList ++ rest)) = .ok (some k, rest) := by
  have hdigits (n : ℕ) : someDigits (Nat.toDigits 10 n ++ rest) = .ok (Nat.toDigits 10 n, rest) :=
    someDigits_append Nat.toDigits_ne_nil isDigit_toDigits hrest
  rw [toList_toString_int, Json.exponent?, bind_get]
  split_ifs with hk
  · have hread := hdigits k.toNat
    have hvalue := valueOf_toDigits k.toNat
    obtain ⟨c, cs, hcs⟩ := List.exists_cons_of_ne_nil (Nat.toDigits_ne_nil (b := 10) (n := k.toNat))
    have hc : c.isDigit := isDigit_toDigits c (hcs ▸ List.mem_cons_self)
    rw [hcs, List.cons_append] at hread
    rw [hcs] at hvalue
    simp only [hcs, List.cons_append, decide_true, Bool.true_or, if_true]
    generalize hl : c :: (cs ++ rest) = l at hread
    have hsign : l.head? ≠ some '-' ∧ l.head? ≠ some '+' := by
      subst hl
      constructor <;> intro h <;> obtain rfl := Option.some.inj h <;> exact absurd hc (by decide)
    split
    · exact absurd rfl hsign.1
    · exact absurd rfl hsign.2
    · rw [bind_set, bind_of_ok _ hread, hvalue, Int.toNat_of_nonneg hk]
      rfl
  · simp only [List.cons_append, decide_true, Bool.true_or, if_true, bind_set]
    rw [bind_of_ok _ (hdigits _), valueOf_toDigits, Int.toNat_of_nonneg (by omega), neg_neg]
    rfl

theorem exponent?_append (hrest : Ends rest) :
    Json.exponent? (w.exponentChars ++ rest) = .ok (w.exponent?, rest) := by
  unfold exponentChars
  cases w.exponent? with
  | none =>
    cases rest with
    | nil => rfl
    | cons c rest => rcases hrest c rfl with rfl | rfl | rfl <;> rfl
  | some k =>
    refine exponent?_cons k fun c hc => ?_
    rcases hrest c hc with rfl | rfl | rfl <;> decide

theorem fraction_append (hw : w.WellFormed) (hrest : ∀ c ∈ rest.head?, c ≠ '.' ∧ ¬ c.isDigit) :
    fraction (w.fractionChars ++ rest) = .ok (w.behind, rest) := by
  have hdigits := hw.behind
  unfold fractionChars
  cases hbehind : w.behind with
  | nil =>
    rw [if_pos List.isEmpty_nil, List.nil_append, fraction, bind_get]
    split
    · exact absurd rfl (hrest '.' rfl).1
    · rfl
  | cons d ds =>
    rw [hbehind] at hdigits
    exact someDigits_append (List.cons_ne_nil d ds) hdigits fun c hc => (hrest c hc).2

/-- What follows the digits before the point is no digit. -/
theorem head?_fractionChars (hrest : Ends rest) :
    ∀ c ∈ (w.fractionChars ++ (w.exponentChars ++ rest)).head?, ¬ c.isDigit := by
  unfold fractionChars
  split_ifs with hbehind
  · exact fun c hc => (head?_exponentChars hrest c hc).2
  · intro c hc
    obtain rfl : '.' = c := Option.some.inj hc
    decide

/-- The parts are found again, and a number in the range of doubles is accepted. -/
theorem number_append (hw : w.WellFormed) (hfinite : w.number.toDouble.isFinite)
    (hrest : Ends rest) :
    Json.number (w.chars ++ rest) = .ok (w.number, rest) := by
  have hbefore := wholePart_append hw.before (head?_fractionChars (w := w) hrest)
  have hbehind := fraction_append hw (head?_exponentChars (w := w) hrest)
  have hexponent := exponent?_append (w := w) hrest
  have hsign : (w.before ++ (w.fractionChars ++ (w.exponentChars ++ rest))).head? ≠ some '-' := by
    obtain ⟨c, ds, hds⟩ := List.exists_cons_of_ne_nil hw.before.ne_nil
    have hc := hw.before.isDigit c (hds ▸ List.mem_cons_self)
    intro h
    rw [hds] at h
    obtain rfl := Option.some.inj h
    exact absurd hc (by decide)
  unfold number at hfinite ⊢
  unfold chars unsignedChars
  rw [Json.number, bind_get]
  cases hnegative : w.negative with
  | true =>
    rw [hnegative] at hfinite
    simp only [if_true, List.append_assoc, List.cons_append, List.nil_append,
      List.head?_cons, bind_drop]
    rw [bind_of_ok _ hbefore, bind_of_ok _ hbehind, bind_of_ok _ hexponent]
    simp only [decide_true, hfinite, if_true, pure_apply]
  | false =>
    rw [hnegative] at hfinite
    simp only [Bool.false_eq_true, if_false, List.append_assoc, List.nil_append,
      hsign, decide_false]
    rw [bind_of_ok _ hbefore, bind_of_ok _ hbehind, bind_of_ok _ hexponent]
    simp only [hfinite, if_true, pure_apply]

/-- A number starts with its sign or with a digit. -/
theorem exists_cons (hw : w.WellFormed) : ∃ c ds, w.chars = c :: ds ∧ (c = '-' ∨ c.isDigit) := by
  obtain ⟨c, ds, hds⟩ := List.exists_cons_of_ne_nil hw.before.ne_nil
  unfold chars unsignedChars
  split_ifs
  · exact ⟨'-', _, rfl, .inl rfl⟩
  · exact ⟨c, _, by rw [hds]; rfl, .inr (hw.before.isDigit c (hds ▸ List.mem_cons_self))⟩

theorem takes_anyNumber (hw : w.WellFormed) (hfinite : w.number.toDouble.isFinite) :
    Takes anyNumber w.chars w.number := by
  obtain ⟨c, ds, hds, hc⟩ := exists_cons hw
  obtain ⟨hblank, hclose⟩ := starts_number hc
  refine ⟨⟨c, ds, hds, hblank, hclose⟩, fun rest hrest => ?_⟩
  have hnumber := number_append hw hfinite hrest
  rw [hds, List.cons_append] at hnumber ⊢
  rw [anyNumber, bind_of_ok _ (peek_cons hblank), if_pos (by simpa using hc), hnumber]

end Written

def Number.value (x : Number) : ℚ := x.digits * 10 ^ x.exponent

/-- A number is read as the double that its magnitude is rounded to, with its sign. -/
theorem Number.exists_toDouble (x : Number) :
    ∃ y, RoundsTo x.value y ∧ x.toDouble = if x.negative then -y else y := by
  refine ⟨_, ?_, rfl⟩
  have hround := roundsTo_ofScientific x.digits (x.exponent < 0) x.exponent.natAbs
  have hexponent :
      (if decide (x.exponent < 0) then -(x.exponent.natAbs : ℤ) else x.exponent.natAbs) =
      x.exponent := by
    split_ifs with h <;> simp only [decide_eq_true_eq] at h <;> omega
  rwa [hexponent] at hround

/-- Counts are read as they are written. -/
theorem takes_natural (hn : n < 2 ^ 64) : Takes natural (Value.natural n).chars n := by
  let w : Written := ⟨false, Nat.toDigits 10 n, [], none⟩
  have hw : w.WellFormed := ⟨isWhole_toDigits n, fun _ hc => absurd hc List.not_mem_nil⟩
  have hchars : w.chars = (Value.natural n).chars := by
    simp [w, Written.chars, Written.unsignedChars, Written.fractionChars,
      Written.exponentChars, Value.chars]
  have hnumber : w.number = ⟨false, n, 0, true⟩ := by
    simp [w, Written.number, valueOf_toDigits]
  obtain ⟨y, hround, hy⟩ := w.number.exists_toDouble
  have hfinite : w.number.toDouble.isFinite := by
    rw [hnumber] at hround hy ⊢
    rw [hy, isFinite_iff]
    have hbound : |(n : ℚ) * 10 ^ (0 : ℤ)| ≤ 2 ^ (64 : ℤ) := by
      rw [zpow_zero, mul_one, abs_of_nonneg n.cast_nonneg]
      exact_mod_cast hn.le
    exact ⟨_, hround.toRat? hbound (isDouble_two_zpow (by norm_num))
      (zpow_lt_zpow_right₀ one_lt_two (by norm_num))⟩
  rw [← hchars]
  refine (Written.takes_anyNumber hw hfinite).bind fun rest => ?_
  have hcount : w.number.toCount? = some n := by
    rw [hnumber]
    simp [Number.toCount?]
    omega
  simp only [hcount, pure_apply]

theorem valueOf_append_replicate (ds : List Char) (k : ℕ) :
    valueOf (ds ++ List.replicate k '0') = 10 ^ k * valueOf ds := by
  change Nat.ofDigitChars 10 _ 0 = _
  rw [Nat.ofDigitChars_append, Nat.ofDigitChars_replicate_zero]
  rfl

theorem valueOf_replicate_append (ds : List Char) (k : ℕ) :
    valueOf (List.replicate k '0' ++ ds) = valueOf ds := by
  change Nat.ofDigitChars 10 _ 0 = _
  rw [Nat.ofDigitChars_append, Nat.ofDigitChars_replicate_zero, Nat.mul_zero]
  rfl

/-- The parts make the number that the digits and their exponent stand for. -/
structure Written.Spells (w : Written) (x : Numeral) : Prop where
  wellFormed : w.WellFormed
  value : w.number.value = x.value

section Layout

variable {x : Numeral} {k : ℕ} (negative : Bool)

theorem isWhole_append {es : List Char} (hds : IsWhole ds) (hzero : ds.head? ≠ some '0')
    (hes : ∀ c ∈ es, c.isDigit) : IsWhole (ds ++ es) := by
  refine ⟨?_, by simp [hds.ne_nil], ?_⟩
  · intro c hc
    exact (List.mem_append.1 hc).elim (hds.isDigit c) (hes c)
  · intro h
    rw [List.head?_append_of_ne_nil _ hds.ne_nil] at h
    exact absurd h hzero

theorem isDigit_replicate : ∀ c ∈ List.replicate k '0', c.isDigit := by
  intro c hc
  obtain rfl := List.eq_of_mem_replicate hc
  decide

/-- All digits stand behind the point, after some zeros. -/
theorem spells_behind (hk : x.exponent = -(k + (Nat.toDigits 10 x.digits).length : ℕ)) :
    Written.Spells ⟨negative, ['0'], List.replicate k '0' ++ Nat.toDigits 10 x.digits, none⟩ x := by
  refine ⟨⟨isWhole_toDigits 0, ?_⟩, ?_⟩
  · intro c hc
    exact (List.mem_append.1 hc).elim (isDigit_replicate c) (isDigit_toDigits c)
  · have hvalue := valueOf_replicate_append (Nat.toDigits 10 x.digits) (k + 1)
    rw [valueOf_toDigits, List.replicate_succ] at hvalue
    simp only [Number.value, Written.number, Numeral.value]
    rw [List.singleton_append, ← List.cons_append, hvalue, hk]
    simp

/-- All digits stand before the point, with some zeros after them. -/
theorem spells_before (hx : 0 < x.digits) (hk : x.exponent = k) :
    Written.Spells ⟨negative, Nat.toDigits 10 x.digits ++ List.replicate k '0', ['0'], none⟩ x := by
  refine ⟨⟨isWhole_append (isWhole_toDigits _) (head?_toDigits_ne hx) isDigit_replicate, ?_⟩, ?_⟩
  · exact isDigit_replicate (k := 1)
  · have hvalue := valueOf_append_replicate (Nat.toDigits 10 x.digits) (k + 1)
    rw [valueOf_toDigits, List.replicate_succ', ← List.append_assoc] at hvalue
    simp only [Number.value, Written.number, Numeral.value]
    rw [hvalue, hk, Option.getD_none, List.length_singleton, zero_sub, Nat.cast_one, zpow_neg_one,
      zpow_natCast]
    push_cast
    ring

/-- The point divides the digits. -/
theorem spells_between {t : Option ℤ} (hx : 0 < x.digits) (hk : 0 < k)
    (he : x.exponent = t.getD 0 - ((Nat.toDigits 10 x.digits).drop k).length) :
    Written.Spells ⟨negative, (Nat.toDigits 10 x.digits).take k,
      (Nat.toDigits 10 x.digits).drop k, t⟩ x := by
  have hhead := head?_toDigits_ne hx
  refine ⟨⟨⟨?_, ?_, ?_⟩, ?_⟩, ?_⟩
  · exact fun c hc => isDigit_toDigits c (List.mem_of_mem_take hc)
  · simp [Nat.toDigits_ne_nil, hk.ne']
  · intro h
    rw [List.head?_take, if_neg hk.ne'] at h
    exact absurd h hhead
  · exact fun c hc => isDigit_toDigits c (List.mem_of_mem_drop hc)
  · simp only [Number.value, Written.number, Numeral.value]
    rw [List.take_append_drop, valueOf_toDigits, he]

/-- The text of a number consists of parts that make the number. -/
theorem exists_spells (hx : 0 < x.digits) : ∃ w : Written, w.Spells x ∧ w.negative = negative ∧
    w.unsignedChars = (Layout.document.numeral x).toList := by
  have hlength := Nat.length_toDigits_pos (b := 10) (n := x.digits)
  unfold Layout.numeral
  rw [Nat.toString_eq_ofList_toDigits]
  dsimp only
  rw [String.length_ofList]
  generalize hp : ((Nat.toDigits 10 x.digits).length : ℤ) + x.exponent = p
  split_ifs with hposition
  · unfold Layout.placePoint
    dsimp only
    rw [String.length_ofList]
    split_ifs with hbehind hbefore hkeep
    · refine ⟨_, spells_behind negative (k := (-p).toNat) ?_, rfl, ?_⟩
      · omega
      · simp [Written.unsignedChars, Written.fractionChars, Written.exponentChars]
    · refine ⟨_, spells_before negative (k := (p - (Nat.toDigits 10 x.digits).length).toNat) hx ?_,
        rfl, ?_⟩
      · omega
      · simp [Written.unsignedChars, Written.fractionChars, Written.exponentChars]
    · exact absurd rfl hkeep
    · refine ⟨_, spells_between negative (k := p.toNat) (t := none) hx ?_ ?_, rfl, ?_⟩
      · omega
      · rw [List.length_drop, Option.getD_none]
        omega
      · simp [Written.unsignedChars, Written.fractionChars, Written.exponentChars]
        omega
  · unfold Layout.placeExponent
    refine ⟨_, spells_between negative (k := 1) (t := some (p - 1)) hx ?_ ?_, rfl, ?_⟩
    · omega
    · rw [List.length_drop, Option.getD_some]
      omega
    · simp only [Written.unsignedChars, Written.fractionChars, Written.exponentChars,
        List.isEmpty_iff]
      split_ifs <;> simp_all

end Layout

def isNegative : Sign → Bool
  | .negative => true
  | .positive => false

theorem toList_sign (s : Sign) : (Layout.sign s).toList = if isNegative s then ['-'] else [] := by
  cases s <;> rfl

/-- The number that is read for the digits of a double gives the double back. -/
theorem toDouble_of_spells {w : Written} {s : Sign} {m : ℕ} {e : ℤ} {hm : 0 < m}
    (hx : x.toModel.unpack = .finite s m e hm) (hw : w.Spells (shortest m e))
    (hnegative : w.negative = isNegative s) : w.number.toDouble = x := by
  have hcanonical := canonical_toModel x
  have hrat : toRat? x = some (signed s (m * 2 ^ e)) := by rw [toRat?, hx, value?]
  have hlt := abs_toRat?_lt hrat
  have hpos : (0 : ℚ) < m * 2 ^ e := mul_pos (by exact_mod_cast hm) (two_zpow_pos e)
  rw [hx] at hcanonical
  obtain ⟨hm', he, hfull⟩ := hcanonical
  obtain ⟨y, hround, hy⟩ := w.number.exists_toDouble
  have hrounded : rounded w.number.value = m * 2 ^ e := hw.value ▸ rounded_shortest hm hm' he hfull
  have hyrat : toRat? y = some ((m : ℚ) * 2 ^ e) := by
    cases hround with
    | finite h => rwa [hrounded] at h
    | tooLarge h =>
      rw [hrounded] at h
      rw [abs_signed] at hlt
      exact absurd h hlt.not_ge
  have hsign : w.number.negative = isNegative s := hnegative
  rw [hy, hsign]
  cases s with
  | positive => exact eq_of_toRat?_eq hyrat hrat hpos.ne'
  | negative => exact eq_of_toRat?_eq (toRat?_neg hyrat) hrat (neg_ne_zero.2 hpos.ne')

/-- A double in the text of a document consists of the parts of a number that gives it back. -/
theorem exists_written (hx : x.isFinite) : ∃ w : Written, w.WellFormed ∧ w.number.toDouble = x ∧
    w.chars = (Layout.document.text x).toList := by
  obtain ⟨q, hq⟩ := isFinite_iff.1 hx
  unfold Layout.text
  cases hunpack : x.toModel.unpack with
  | notANumber | infinity => simp [toRat?, hunpack, value?] at hq
  | zero s =>
    have hzero := isWhole_toDigits 0
    refine ⟨⟨isNegative s, ['0'], ['0'], none⟩, ⟨hzero, hzero.isDigit⟩, ?_, ?_⟩
    · refine eq_of_unpack_eq (Eq.trans ?_ hunpack.symm)
      cases s <;> rfl
    · cases s <;> rfl
  | finite s m e hm =>
    have hcanonical := canonical_toModel x
    rw [hunpack] at hcanonical
    obtain ⟨hm', he, hfull⟩ := hcanonical
    obtain ⟨w, hw, hnegative, hchars⟩ :=
      exists_spells (isNegative s) (digits_shortest_pos hm hm' he hfull)
    refine ⟨w, hw.wellFormed, toDouble_of_spells hunpack hw hnegative, ?_⟩
    rw [Written.chars, hnegative, hchars, String.toList_append, toList_sign]

/-- The text of a double is read as the same double. -/
theorem takes_real (hx : x.isFinite) : Takes real (Value.real x).chars x := by
  obtain ⟨w, hw, hdouble, hchars⟩ := exists_written hx
  have hreal : (Value.real x).chars = w.chars := by
    rw [Value.chars, realChars, if_pos hx, hchars]
  rw [hreal]
  refine (Written.takes_anyNumber hw (by rwa [hdouble])).bind fun rest => ?_
  rw [hdouble, pure_apply]

end WeightPolyhedron.Json
