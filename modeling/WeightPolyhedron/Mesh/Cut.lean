import WeightPolyhedron.Mesh.Region
import WeightPolyhedron.Settings
import WeightPolyhedron.Vertex.Adjacency
/-!
Cutting a mesh with a facet. The violated region is replaced by one new vertex on each of its cut
edges; under a point facet a violated vertex on a vertical edge descends along it instead of being
removed. Vertical edges are not part of the graph, so the descent stands in for cutting them. A cut
that fails leaves the changes made up to there.
-/

namespace WeightPolyhedron

/-- What a cut did: nodes opened for testing, and violated nodes met. Both are 64-bit counts, and
sums of them wrap. -/
structure CutStats where
  opened : UInt64
  processed : UInt64
deriving Repr, DecidableEq

namespace CutStats

def zero : CutStats := ⟨0, 0⟩

def rejected : CutStats := ⟨0, 1⟩

instance : Add CutStats := ⟨fun a b => ⟨a.opened + b.opened, a.processed + b.processed⟩⟩

end CutStats

inductive Cut.Error (α : Type) where
  | mesh (cause : Mesh.Error)
  | vertex (cause : Vertex.Error α)
deriving Repr, DecidableEq

/-- A change of a mesh that may fail; after a failure the mesh is as the failure found it. -/
abbrev Mesh.Action (α β : Type) := EStateM (Cut.Error α) (Mesh α) β

/-- What a cut does with a violated node. -/
inductive Cut.Fate where
  /-- It stays and its vertex descends; it may have been opened for testing again. -/
  | descended (node : NodeKey) (opened : Bool)
  /-- It is to be removed. -/
  | removed (node : NodeKey)
deriving Repr, DecidableEq

namespace Cut.Fate

def staying? : Fate → Option NodeKey
  | descended n _ => some n
  | removed _ => none

def leaving? : Fate → Option NodeKey
  | descended _ _ => none
  | removed n => some n

def isOpened : Fate → Bool
  | descended _ opened => opened
  | removed _ => false

end Cut.Fate

namespace Mesh

variable {α : Type}

def unmark (m : Mesh α) (nodes : List NodeKey) : Mesh α :=
  { m with graph := nodes.foldl (fun g n => (g.unmarkUntested n).2) m.graph }

def setVertex (m : Mesh α) (n : NodeKey) (v : Vertex α) : Mesh α :=
  match m.graph.vertexOf? n with
  | some key => { m with vertices := m.vertices.modify key fun _ => v }
  | none => m

/-- Takes all edges off a node and, unless it was handed out last, opens it for testing. -/
def reopen (m : Mesh α) (n : NodeKey) : Bool × Mesh α :=
  let cleared := m.graph.clearEdges n
  if cleared.lastTaken = some n then
    (false, { m with graph := cleared })
  else
    let (opened, graph) := cleared.markUntested n
    (opened, { m with graph })

def joinPairs (m : Mesh α) (nodes : List NodeKey) (pairs : List (Nat × Nat)) : Mesh α :=
  pairs.foldl (fun m (i, j) =>
    match nodes[i]?, nodes[j]? with
    | some u, some v => m.join u v
    | _, _ => m) m

def discard (m : Mesh α) (retention : Retention) (n : NodeKey) : Mesh α :=
  match m.graph.removeNode n with
  | (none, graph) => { m with graph }
  | (some key, graph) =>
    match retention with
    | .deferred => ⟨graph, m.vertices.modify key fun v => { v with node := none }⟩
    | .immediate => ⟨graph, m.vertices.erase key⟩

def inspect {β : Type} (read : Mesh α → Except Error β) : Action α β := fun m =>
  match read m with
  | .ok b => .ok b m
  | .error e => .error (.mesh e) m

def derive (v : Except (Vertex.Error α) (Vertex α)) : Action α (Vertex α) := fun m =>
  match v with
  | .ok v => .ok v m
  | .error e => .error (.vertex e) m

/-- Puts a new untested vertex on a cut edge and joins it to the surviving end. -/
def splitEdge [Scalar α] (id : FacetId) (f : Facet α) (edge : NodeKey × NodeKey) :
    Action α NodeKey := do
  let violated ← inspect (·.vertexAt edge.1)
  let surviving ← inspect (·.vertexAt edge.2)
  let v ← derive (Vertex.onEdge violated surviving id f)
  modifyGet fun m =>
    let (n, m) := m.attach v true
    (n, m.join n edge.2)

/-- Lets a violated vertex descend onto a point facet, or leaves its node to be removed. -/
def settle [Scalar α] (log : FacetLog α) (id : FacetId) (f : Facet α) (n : NodeKey) :
    Action α Cut.Fate := do
  let v ← inspect (·.vertexAt n)
  if f.kind = .point ∧ v.hasVerticalEdge log then
    let v ← derive (v.descend id f log)
    modifyGet fun m =>
      let (opened, m) := (m.setVertex n v).reopen n
      (.descended n opened, m)
  else
    pure (.removed n)

/-- Cuts the mesh with a stored facet, from a violated node on. New vertices are derived before any
violated vertex descends, so that they lie on the edges as they were. -/
def cut [Scalar α] (log : FacetLog α) (id : FacetId) (f : Facet α) (seed : NodeKey)
    (retention : Retention) : Action α CutStats := do
  let region ← inspect (·.violatedRegion f seed)
  modify (·.unmark region.nodes)
  let created ← region.cutEdges.mapM (splitEdge id f)
  let fates ← region.nodes.mapM (settle log id f)
  let fresh := created ++ fates.filterMap (·.staying?)
  let vertices ← fresh.mapM fun n => inspect (·.vertexAt n)
  modify (·.joinPairs fresh (Vertex.adjacentPairs vertices))
  modify fun m => (fates.filterMap (·.leaving?)).foldl (·.discard retention ·) m
  pure ⟨.ofNat (created.length + fates.countP (·.isOpened)), .ofNat region.nodes.length⟩

end Mesh

end WeightPolyhedron
