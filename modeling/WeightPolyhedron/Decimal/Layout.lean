import WeightPolyhedron.Decimal.Shortest
/-!
How a double is written. The digits are always the shortest that identify it; a layout decides where
the point goes, when an exponent is used and whether a whole number keeps its fraction.
-/

namespace WeightPolyhedron.Decimal

/-- The decisions of a written form. `positional p` tells whether a number with its point `p` places
after the start of its digits is written without an exponent. -/
structure Layout where
  positional : Int → Bool
  /-- Whether a whole number is written with a fraction, `3.0`. -/
  keepFraction : Bool

/-- Never an exponent, and no fraction without need: `3`, `0.0000001`. -/
def Layout.plain : Layout := ⟨fun _ => true, false⟩

/-- Always a point or an exponent, the exponent below `0.0001` and from `10 ^ 16` on: `3.0`,
`1e-5`. -/
def Layout.pointed : Layout := ⟨fun p => decide (-3 ≤ p) && decide (p ≤ 16), true⟩

/-- As pointed numbers, but with an exponent only below `0.00001`. -/
def Layout.document : Layout := ⟨fun p => decide (-4 ≤ p) && decide (p ≤ 16), true⟩

/-- Always an exponent: `3e0`, `1e-9`. -/
def Layout.scientific : Layout := ⟨fun _ => false, false⟩

namespace Layout

def placePoint (l : Layout) (digits : String) (p : Int) : String :=
  let n : Int := digits.length
  if p ≤ 0 then
    "0." ++ String.ofList (List.replicate (-p).toNat '0') ++ digits
  else if n ≤ p then
    digits ++ String.ofList (List.replicate (p - n).toNat '0') ++
      (if l.keepFraction then ".0" else "")
  else
    String.ofList (digits.toList.take p.toNat) ++ "." ++ String.ofList (digits.toList.drop p.toNat)

def placeExponent (digits : String) (p : Int) : String :=
  let rest := digits.toList.drop 1
  String.ofList (digits.toList.take 1) ++ (if rest.isEmpty then "" else "." ++ String.ofList rest)
    ++ "e" ++ toString (p - 1)

def numeral (l : Layout) (x : Numeral) : String :=
  let digits := toString x.digits
  let p := digits.length + x.exponent
  if l.positional p then l.placePoint digits p else placeExponent digits p

def zero (l : Layout) : String := l.numeral ⟨0, 0⟩

def sign : Float.Model.UnpackedFloat.Sign → String
  | .negative => "-"
  | .positive => ""

def text (l : Layout) (x : Float) : String :=
  match x.toModel.unpack with
  | .notANumber => "NaN"
  | .infinity s => sign s ++ "inf"
  | .zero s => sign s ++ l.zero
  | .finite s m e _ => sign s ++ l.numeral (shortest m e)

def listText (l : Layout) (xs : List Float) : String :=
  "[" ++ ", ".intercalate (xs.map l.text) ++ "]"

end Layout

end WeightPolyhedron.Decimal
