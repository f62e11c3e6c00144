import WeightPolyhedron.Mesh
import WeightPolyhedron.Vertex.Adjacency
/-!
Audits of a mesh. They repair nothing and report the first violation they meet: nodes by slot, first
each node by itself, then the untested marks, then the edges; or all pairs of nodes.
-/

namespace WeightPolyhedron

inductive Mesh.Violation where
  /-- The vertex of a node is not stored. -/
  | missingVertex (node : NodeKey)
  /-- The vertex of a node names another node, or none. -/
  | brokenBackReference (node : NodeKey) (vertex : VertexKey) (found : Option NodeKey)
  /-- The vertex of a node has too many or too few facets. -/
  | wrongFacetCount (node : NodeKey) (expected actual : Nat)
  /-- `u` lists `v`, but not the other way round. -/
  | asymmetricAdjacency (u v : NodeKey)
  /-- A node is untested but not in the graph. -/
  | danglingUntested (node : NodeKey)
  /-- An edge joins vertices that are no neighbours. -/
  | nonAdjacentEdge (u v : NodeKey) (shared expected : Nat)
  /-- Two neighbours are not joined. -/
  | missingEdge (u v : NodeKey)
deriving Repr, DecidableEq

namespace Mesh

variable {α : Type}

def auditedVertex (m : Mesh α) (n : NodeKey) : Except Violation (Vertex α) :=
  match m.vertex? n with
  | some v => .ok v
  | none => .error (.missingVertex n)

/-- Looks at one node: its vertex, the way back, the number of facets, and that it is listed by the
nodes that it lists. -/
def auditNode (m : Mesh α) (objectives : Nat) (n : NodeKey) (entry : Node) :
    Except Violation Unit := do
  let v ← m.auditedVertex n
  if v.node ≠ some n then
    throw (.brokenBackReference n entry.vertex v.node)
  if v.facets.length ≠ objectives then
    throw (.wrongFacetCount n objectives v.facets.length)
  match entry.neighbors.find? fun other => !m.graph.hasEdge other n with
  | some other => throw (.asymmetricAdjacency n other)
  | none => pure ()

def auditEdge (m : Mesh α) (objectives : Nat) (e : Edge) : Except Violation Unit := do
  let a ← m.auditedVertex e.fst
  let b ← m.auditedVertex e.snd
  if !a.isNeighbour b then
    throw (.nonAdjacentEdge e.fst e.snd (a.sharedFacets b) (objectives - 1))

def auditStructure (m : Mesh α) (objectives : Nat) : Except Violation Unit := do
  m.graph.nodes.entries.forM fun (n, entry) => m.auditNode objectives n entry
  match m.graph.untested.find? fun n => !m.graph.contains n with
  | some n => throw (.danglingUntested n)
  | none => pure ()
  m.graph.edges.forM (m.auditEdge objectives)

def auditCompleteness (m : Mesh α) : Except Violation Unit := do
  let nodes ← m.graph.nodes.keys.mapM fun n => (m.auditedVertex n).map fun v => (n, v)
  nodes.zipIdx.forM fun ((v, b), j) =>
    match (nodes.take j).find? fun (u, a) => a.isNeighbour b && !m.graph.hasEdge u v with
    | some (u, _) => throw (.missingEdge u v)
    | none => pure ()

def audit (m : Mesh α) (objectives : Nat) : Except Violation Unit := do
  m.auditStructure objectives
  m.auditCompleteness

def edgesAreAdjacent (m : Mesh α) : Bool :=
  m.graph.edges.all fun e =>
    match m.vertex? e.fst, m.vertex? e.snd with
    | some a, some b => a.isNeighbour b
    | _, _ => false

end Mesh

end WeightPolyhedron
