import WeightPolyhedron.Vertex
/-!
Adjacency of vertices. Two vertices of a simple polyhedron over `p` objectives are joined by an edge
when they have `p - 1` facets in common.
-/

namespace WeightPolyhedron

/-- Passes over the elements below `a`, counts `a` itself if it comes next, and goes on with a count
for what follows `a` in the other list. -/
def commonCountFrom {β : Type} [Ord β] (a : β) (count : List β → Nat) : List β → Nat
  | [] => 0
  | b :: bs =>
    match compare a b with
    | .lt => count (b :: bs)
    | .eq => count bs + 1
    | .gt => commonCountFrom a count bs

def commonCount {β : Type} [Ord β] : List β → List β → Nat
  | [] => fun _ => 0
  | a :: as => commonCountFrom a (commonCount as)

namespace Vertex

variable {α : Type}

def sharedFacets (v u : Vertex α) : Nat := commonCount v.facets u.facets

/-- Whether two vertices over the same objectives share all facets but one. -/
def isNeighbour (v u : Vertex α) : Bool :=
  v.objectives == u.objectives && v.sharedFacets u + 1 == v.objectives

/-- The positions of the neighbours among the vertices before each vertex, vertex by vertex. -/
def adjacentPairs (vs : List (Vertex α)) : List (Nat × Nat) :=
  vs.zipIdx.flatMap fun (b, j) =>
    (vs.take j).zipIdx.filterMap fun (a, i) => if a.isNeighbour b then some (i, j) else none

end Vertex

end WeightPolyhedron
