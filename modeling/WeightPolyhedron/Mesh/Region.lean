import WeightPolyhedron.Mesh
/-!
The violated region of a facet: what a breadth-first search from a violated node reaches through
violated nodes, and the edges that leave it.
-/

namespace WeightPolyhedron

/-- Violated nodes in the order of discovery, and the edges from a violated to a surviving node. -/
structure Region where
  nodes : List NodeKey
  cutEdges : List (NodeKey × NodeKey)
deriving Repr, DecidableEq

def Region.contains (r : Region) (n : NodeKey) : Bool := r.nodes.contains n

namespace Mesh

variable {α : Type} [Scalar α]

/-- Sorts the given neighbours of a violated node: violated ones join the region and the queue, the
surviving ones leave a cut edge. -/
def sortNeighbors (m : Mesh α) (f : Facet α) (current : NodeKey) :
    List NodeKey → List NodeKey × Region → Except Error (List NodeKey × Region)
  | [], state => .ok state
  | n :: rest, (queue, region) =>
    if region.contains n then
      sortNeighbors m f current rest (queue, region)
    else
      match m.vertexAt n with
      | .error e => .error e
      | .ok v =>
        if f.violates v .strict then
          sortNeighbors m f current rest
            (queue ++ [n], { region with nodes := region.nodes ++ [n] })
        else
          sortNeighbors m f current rest
            (queue, { region with cutEdges := region.cutEdges ++ [(current, n)] })

/-- Takes nodes off the queue until it is empty, as often as the given bound allows. -/
def spread (m : Mesh α) (f : Facet α) : Nat → List NodeKey × Region → Except Error Region
  | 0, (_, region) => .ok region
  | _, ([], region) => .ok region
  | bound + 1, (current :: queue, region) =>
    match m.sortNeighbors f current (m.graph.neighbors current) (queue, region) with
    | .error e => .error e
    | .ok state => spread m f bound state

/-- The violated region around a seed, which counts as violated. Each node of the graph enters the
queue at most once, so their number bounds the search. -/
def violatedRegion (m : Mesh α) (f : Facet α) (seed : NodeKey) : Except Error Region :=
  if m.graph.contains seed then
    m.spread f m.graph.size ([seed], ⟨[seed], []⟩)
  else
    .error (.missingSeed seed)

end Mesh

end WeightPolyhedron
