import WeightPolyhedron.Vertex
/-!
When a facet violates a vertex. A tolerant test leaves a margin, so that a point which improves the
value by rounding noise alone cuts nothing off.
-/

namespace WeightPolyhedron

/-- How far below zero the value of a facet must lie for the vertex to be violated. -/
inductive Tolerance (α : Type) where
  /-- Below zero at all. -/
  | strict
  /-- Below zero by more than the margin. -/
  | margin (epsilon : α)
deriving Repr, DecidableEq

def Facet.violates {α : Type} [Scalar α] (f : Facet α) (v : Vertex α) : Tolerance α → Bool
  | .strict => decide (v.facetValue f < 0)
  | .margin epsilon => decide (v.facetValue f < -epsilon)

end WeightPolyhedron
