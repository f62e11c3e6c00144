import WeightPolyhedron.Arena
import WeightPolyhedron.Facet.Log
/-!
Vertices of the weight polyhedron: a weight, the value attained there, and the ids of the facets
that define it, ascending. There are three ways to get one: the corners of the simplex under the
first point, the cut of an edge by a new facet, and the descent of a vertex along its vertical edge.
-/

namespace WeightPolyhedron

/-- A vertex, with the graph node that represents it, if there is one. -/
structure Vertex (α : Type) where
  weight : List α
  value : α
  facets : List FacetId
  node : Option NodeKey
deriving Repr, DecidableEq

inductive Vertex.Error (α : Type) where
  /-- The facet does not have the ends of the edge on its two sides. -/
  | notSeparated (violated surviving : α)
  /-- Only a vertex on a vertical edge can descend. -/
  | notMovable (weight : List α)
  /-- A facet without coefficient of the value never meets a vertical edge. -/
  | noDescent (facet : FacetId)
deriving Repr, DecidableEq

def FacetId.insert (id : FacetId) : List FacetId → List FacetId
  | [] => [id]
  | other :: rest => if id ≤ other then id :: other :: rest else other :: FacetId.insert id rest

namespace Vertex

variable {α : Type} [Scalar α]

/-- The corner `eᵢ` of the simplex under a point facet: all sides but the `i`-th pass through it. -/
def corner? (index objectives : Nat) (value : α) (point : FacetId) : Option (Vertex α) :=
  if index < objectives then
    some {
      weight := Facet.unitVector objectives index
      value
      facets := FacetId.insert point ((List.range objectives).filter (· ≠ index))
      node := none }
  else
    none

def facetValue (v : Vertex α) (f : Facet α) : α := f.evaluate v.weight v.value

/-- The share of the violated end in the point of an edge where a facet is tight. The value of the
facet is affine along the edge. -/
def share (violated surviving : α) : α := surviving / (surviving - violated)

/-- `t * a + (1 - t) * b`, fused in its first term. -/
def blend (t a b : α) : α := Scalar.mulAdd t a ((1 - t) * b)

/-- The vertex where a facet cuts the edge from a violated to a surviving vertex. It is defined by
the facets that both have, and by the new one. -/
def onEdge (violated surviving : Vertex α) (id : FacetId) (f : Facet α) :
    Except (Error α) (Vertex α) :=
  let a := violated.facetValue f
  let b := surviving.facetValue f
  if a < 0 ∧ 0 ≤ b then
    let t := share a b
    .ok {
      weight := List.zipWith (blend t) violated.weight surviving.weight
      value := blend t violated.value surviving.value
      facets := FacetId.insert id (violated.facets.filter (· ∈ surviving.facets))
      node := none }
  else
    .error (.notSeparated a b)

omit [Scalar α] in
def objectives (v : Vertex α) : Nat := v.weight.length

omit [Scalar α] in
def isCorner (v : Vertex α) : Bool :=
  v.facets.countP (·.isBoundary v.objectives) + 1 == v.objectives

omit [Scalar α] in
/-- Whether the vertex tops a vertical edge: all defining facets but one are vertical. -/
def hasVerticalEdge (v : Vertex α) (log : FacetLog α) : Bool :=
  v.facets.countP log.isVertical + 1 == v.objectives

/-- Moves a vertex down its vertical edge onto a facet: its point facet is replaced and the value
recomputed, the weight stays. -/
def descend (v : Vertex α) (id : FacetId) (f : Facet α) (log : FacetLog α) :
    Except (Error α) (Vertex α) :=
  match v.facets.find? fun i => !log.isVertical i with
  | none => .error (.notMovable v.weight)
  | some replaced =>
    if v.hasVerticalEdge log then
      match f.tightValue? v.weight with
      | none => .error (.noDescent id)
      | some value => .ok { v with value, facets := FacetId.insert id (v.facets.erase replaced) }
    else
      .error (.notMovable v.weight)

end Vertex

end WeightPolyhedron
