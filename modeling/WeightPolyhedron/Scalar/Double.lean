import WeightPolyhedron.Scalar
/-!
Double precision as an arithmetic of the polyhedron. The one operation that core does not have is
the fused multiply-add: the product is kept exact and the sum is rounded once, by the same rounding
function as core's addition.
-/

namespace WeightPolyhedron.Double

open Float.Model (UnpackedFloat Format)

/-- `a * b + c` with one rounding. With three nonzero real operands the product is formed without
rounding and handed to addition, which aligns exactly and rounds once. A zero `c` leaves the rounded
product, with its sign even where it underflows. In all other cases the product is exact: it is
zero, infinite or undefined. -/
def mulAdd (format : Format) (a b c : UnpackedFloat) : UnpackedFloat :=
  match a, b, c with
  | .finite .., .finite .., .zero _ => UnpackedFloat.mul format a b
  | .finite s₁ m₁ e₁ h₁, .finite s₂ m₂ e₂ h₂, .finite .. =>
    UnpackedFloat.add format (.finite (s₁ * s₂) (m₁ * m₂) (e₁ + e₂) (Nat.mul_pos h₁ h₂)) c
  | _, _, _ => UnpackedFloat.add format (UnpackedFloat.mul format a b) c

def fusedMulAdd (a b c : Float) : Float :=
  .ofModel (.pack (mulAdd .binary64 a.toModel.unpack b.toModel.unpack c.toModel.unpack))

instance : Scalar Float where
  zero := 0
  one := 1
  ltDecidable := inferInstance
  leDecidable := inferInstance
  mulAdd := fusedMulAdd
  isFinite := Float.isFinite

end WeightPolyhedron.Double
