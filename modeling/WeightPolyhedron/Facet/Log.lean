import WeightPolyhedron.Facet
/-!
The append-only log of the facets of one polyhedron. A facet is named by its position, which never
changes. The sides of the simplex come first, so that the ids below the number of objectives are
boundary facets.
-/

namespace WeightPolyhedron

/-- Position of a facet in its log. -/
abbrev FacetId := Nat

def FacetId.isBoundary (id : FacetId) (objectives : Nat) : Bool := id < objectives

def FacetId.text (id : FacetId) : String := "f" ++ toString id

/-- Facets over one number of objectives, in order of arrival. -/
structure FacetLog (α : Type) where
  objectives : Nat
  facets : Array (Facet α)
deriving Repr, DecidableEq

namespace FacetLog

variable {α : Type}

def empty (objectives : Nat) : FacetLog α := ⟨objectives, #[]⟩

def appendBoundaries [Scalar α] (log : FacetLog α) : FacetLog α :=
  { log with
    facets := log.facets
      ++ ((List.range log.objectives).filterMap (Facet.boundary? log.objectives)).toArray }

def ofSimplex [Scalar α] (objectives : Nat) : FacetLog α := (empty objectives).appendBoundaries

def push (log : FacetLog α) (f : Facet α) : Except (Facet.Error α) (FacetId × FacetLog α) :=
  if f.objectives = log.objectives then
    .ok (log.facets.size, { log with facets := log.facets.push f })
  else
    .error (.wrongLength log.objectives f.objectives)

def pushPoint [Scalar α] (log : FacetLog α) (point : List α) :
    Except (Facet.Error α) (FacetId × FacetLog α) :=
  Facet.ofPoint point >>= log.push

def pushRay [Scalar α] (log : FacetLog α) (ray : List α) :
    Except (Facet.Error α) (FacetId × FacetLog α) :=
  Facet.ofRay ray >>= log.push

def get? (log : FacetLog α) (id : FacetId) : Option (Facet α) := log.facets[id]?

def isVertical (log : FacetLog α) (id : FacetId) : Bool := (log.get? id).any Facet.isVertical

def size (log : FacetLog α) : Nat := log.facets.size

def entries (log : FacetLog α) : List (FacetId × Facet α) :=
  log.facets.toList.zipIdx.map fun (f, i) => (i, f)

end FacetLog

end WeightPolyhedron
