import WeightPolyhedron.Scalar
/-!
Facets of the weight polyhedron. A facet over `p` objectives is the inequality
`a₁ w₁ + … + aₚ wₚ + c z ≥ 0` on a weight `w` and a weighted objective value `z`. A point `y` gives
`z ≤ w · y`, a ray `r` gives `0 ≤ w · r`, and the sides of the weight simplex give `0 ≤ wᵢ`.
-/

namespace WeightPolyhedron

inductive Facet.Kind where
  /-- A side of the weight simplex. -/
  | boundary
  /-- An outcome vector, which bounds the value from above. -/
  | point
  /-- A direction without bound, which restricts the weight alone. -/
  | ray
deriving Repr, DecidableEq

def Facet.Kind.name : Facet.Kind → String
  | .boundary => "Boundary"
  | .point => "Point"
  | .ray => "Ray"

/-- An inequality: the weight coefficients, then the coefficient of the value. -/
structure Facet (α : Type) where
  coefficients : List α
  kind : Facet.Kind
deriving Repr, DecidableEq

inductive Facet.Error (α : Type) where
  | wrongLength (expected actual : Nat)
  | notFinite (index : Nat) (value : α)
  | empty
deriving Repr, DecidableEq

namespace Facet

variable {α : Type} [Scalar α]

def unitVector (objectives index : Nat) : List α :=
  (List.range objectives).map fun i => if i = index then 1 else 0

/-- The side `0 ≤ wᵢ` of the simplex, for an index below the number of objectives. -/
def boundary? (objectives index : Nat) : Option (Facet α) :=
  if index < objectives then some ⟨unitVector objectives index ++ [0], .boundary⟩ else none

/-- The facet with the given weight coefficients, which must be finite, and at least one. -/
def ofVector (values : List α) (last : α) (kind : Kind) : Except (Error α) (Facet α) :=
  if values.isEmpty then
    .error .empty
  else
    match values.zipIdx.find? fun (v, _) => !Scalar.isFinite v with
    | some (v, i) => .error (.notFinite i v)
    | none => .ok ⟨values ++ [last], kind⟩

/-- The facet `z ≤ w · y` of an outcome vector. -/
def ofPoint (point : List α) : Except (Error α) (Facet α) := ofVector point (-1) .point

/-- The facet `0 ≤ w · r` of an unbounded direction. -/
def ofRay (ray : List α) : Except (Error α) (Facet α) := ofVector ray 0 .ray

omit [Scalar α] in
/-- Number of objectives: one less than there are coefficients. A facet without coefficients counts
the largest 64-bit number of objectives, so that it fits no log. -/
def objectives (f : Facet α) : Nat :=
  match f.coefficients with
  | [] => 0xFFFFFFFFFFFFFFFF
  | _ :: rest => rest.length

omit [Scalar α] in
def weightCoefficients (f : Facet α) : List α := f.coefficients.dropLast

def valueCoefficient (f : Facet α) : α := f.coefficients.getLast?.getD 0

omit [Scalar α] in
/-- A vertical facet leaves the value unconstrained. Only points are not vertical, by kind. -/
def isVertical (f : Facet α) : Bool := f.kind != .point

/-- The left-hand side of the inequality at `(weight, value)`: the term of the value first, then one
fused term per objective from the left. -/
def evaluate (f : Facet α) (weight : List α) (value : α) : α :=
  (f.weightCoefficients.zip weight).foldl (fun sum (a, w) => Scalar.mulAdd a w sum)
    (f.valueCoefficient * value)

/-- The value at which the facet is tight for a weight; none if the value has no coefficient. -/
def tightValue? (f : Facet α) (weight : List α) : Option α :=
  let c := f.valueCoefficient
  if c == 0 then none else some (-f.evaluate weight 0 / c)

end Facet

end WeightPolyhedron
