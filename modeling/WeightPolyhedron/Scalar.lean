/-!
The numbers on which a weight polyhedron is computed. All geometry is written once over this class;
`Rat` gives the exact reading of it, and `Float` (`Scalar.Double`) the rounded one.
-/

namespace WeightPolyhedron

/-- Numbers with the operations that the geometry uses. Nothing is assumed of the operations, so a
rounded arithmetic with infinities and a value that differs from itself is an instance too. -/
class Scalar (α : Type) extends Zero α, One α, Neg α, Sub α, Mul α, Div α, LT α, LE α, BEq α where
  ltDecidable : DecidableLT α
  leDecidable : DecidableLE α
  /-- `mulAdd a b c` is `a * b + c`, rounded at most once. -/
  mulAdd : α → α → α → α
  /-- Whether the number is a real number, neither infinite nor undefined. -/
  isFinite : α → Bool

attribute [reducible, instance] Scalar.ltDecidable Scalar.leDecidable

instance : Scalar Rat where
  zero := 0
  one := 1
  ltDecidable := inferInstance
  leDecidable := inferInstance
  mulAdd a b c := a * b + c
  isFinite _ := true

end WeightPolyhedron
