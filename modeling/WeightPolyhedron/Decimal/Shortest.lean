/-!
The fewest decimal digits that identify a binary number. A number `m * 2 ^ e` stands for all reals
that round to it; the digits chosen are those of the coarsest decimal grid that has a point among
these reals, and of two such points the nearer one. All comparisons are made on naturals.
-/

namespace WeightPolyhedron.Decimal

structure Numeral where
  digits : Nat
  exponent : Int
deriving Repr, DecidableEq

/-- The reals that round to a positive binary number, in units of `2 ^ scale`. -/
structure Basin where
  low : Nat
  value : Nat
  high : Nat
  scale : Int
  /-- Whether the two ends belong to it. -/
  closed : Bool
deriving Repr, DecidableEq

/-- The basin of `m * 2 ^ e` in double precision. It ends halfway to the neighbours; below a power
of two the neighbour is twice as near, unless the numbers are as dense there as they get. A halfway
point goes to the even mantissa. -/
def Basin.ofDouble (m : Nat) (e : Int) : Basin where
  low := if m = Nat.pow 2 52 ∧ -1074 < e then 4 * m - 1 else 4 * m - 2
  value := 4 * m
  high := 4 * m + 2
  scale := e - 2
  closed := m % 2 = 0

namespace Basin

/-- A step of the grid `10 ^ g`, and the unit of the basin, as multiples of a common length. -/
def measures (b : Basin) (g : Int) : Nat × Nat :=
  (Nat.pow 10 g.toNat * Nat.pow 2 (-b.scale).toNat, Nat.pow 2 b.scale.toNat * Nat.pow 10 (-g).toNat)

def contains (b : Basin) (d : Nat) (g : Int) : Bool :=
  let (step, unit) := b.measures g
  if b.closed then
    decide (b.low * unit ≤ d * step) && decide (d * step ≤ b.high * unit)
  else
    decide (b.low * unit < d * step) && decide (d * step < b.high * unit)

/-- The point of the grid `10 ^ g` that rounds to the number and is nearest to it, the larger one of
two equally near. Only the two grid points around the number can be it. -/
def nearest? (b : Basin) (g : Int) : Option Nat :=
  let (step, unit) := b.measures g
  let below := b.value * unit / step
  match b.contains below g, b.contains (below + 1) g with
  | true, true => some (if 2 * (b.value * unit) < (2 * below + 1) * step then below else below + 1)
  | true, false => some below
  | false, true => some (below + 1)
  | false, false => none

def search (b : Basin) : Nat → Int → Option Numeral
  | 0, _ => none
  | n + 1, g =>
    match b.nearest? g with
    | some d => some ⟨d, g⟩
    | none => search b n (g - 1)

end Basin

def Numeral.exact (m : Nat) (e : Int) : Numeral :=
  if 0 ≤ e then ⟨m * Nat.pow 2 e.toNat, 0⟩ else ⟨m * Nat.pow 5 (-e).toNat, e⟩

/-- The least number of digits that identify the double `m * 2 ^ e`, without trailing zeros. The
search starts at a power of ten above the number (`30103 / 100000` exceeds the decimal logarithm of
two) and seventeen digits always suffice, so that the exact value is never needed. -/
def shortest (m : Nat) (e : Int) : Numeral :=
  let above := (m.log2 + 1 + e) * 30103 / 100000 + 1
  ((Basin.ofDouble m e).search 20 above).getD (.exact m e)

end WeightPolyhedron.Decimal
