import WeightPolyhedron.Graph
import WeightPolyhedron.Violation
/-!
A mesh: the graph together with the vertices that its nodes stand for.
-/

namespace WeightPolyhedron

/-- A graph and its vertices. Vertices that no node stands for any more may be kept. -/
structure Mesh (α : Type) where
  graph : Graph
  vertices : Arena .vertex (Vertex α)
deriving Repr

inductive Mesh.Error where
  /-- The search was to start at a node that is not in the graph. -/
  | missingSeed (node : NodeKey)
  /-- The node is not in the graph, or its vertex is not stored. -/
  | missingVertex (node : NodeKey) (vertex : Option VertexKey)
deriving Repr, DecidableEq

namespace Mesh

variable {α : Type}

def empty : Mesh α := ⟨.empty, .empty⟩

def vertex? (m : Mesh α) (n : NodeKey) : Option (Vertex α) :=
  m.graph.vertexOf? n >>= m.vertices.get?

def vertexAt (m : Mesh α) (n : NodeKey) : Except Error (Vertex α) :=
  match m.vertex? n with
  | some v => .ok v
  | none => .error (.missingVertex n (m.graph.vertexOf? n))

/-- The nodes whose vertex is stored, with it, by slot. -/
def located (m : Mesh α) : List (NodeKey × Vertex α) :=
  m.graph.nodes.keys.filterMap fun n => (m.vertex? n).map fun v => (n, v)

/-- Stores a vertex and adds a node for it; each names the other. -/
def attach (m : Mesh α) (v : Vertex α) (untested : Bool) : NodeKey × Mesh α :=
  let (key, vertices) := m.vertices.insert v
  let (n, graph) := m.graph.addNode key untested
  (n, ⟨graph, vertices.modify key fun v => { v with node := some n }⟩)

def join (m : Mesh α) (u v : NodeKey) : Mesh α := { m with graph := (m.graph.addEdge u v).2 }

def findViolated [Scalar α] (m : Mesh α) (f : Facet α) (tolerance : Tolerance α) : Option NodeKey :=
  (m.located.find? fun (_, v) => f.violates v tolerance).map (·.1)

end Mesh

end WeightPolyhedron
